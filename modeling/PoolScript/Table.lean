/-!
# Tables

A table binds names to values, each name once, and keeps the order in which the names
were first bound: a name bound anew keeps its place.

* `get?_set_self`, `get?_set_of_ne`: what a table holds after a binding.
-/

namespace PoolScript

/-- Bindings of names to values in the order of their first binding. -/
structure Table (α : Type) where
  entries : List (String × α)
  distinct : (entries.map (·.1)).Nodup

namespace Table

variable {α : Type}

/-- The bindings in `es` with `name` bound to `a`. -/
def bind (name : String) (a : α) : List (String × α) → List (String × α)
  | [] => [(name, a)]
  | e :: es => if e.1 = name then (name, a) :: es else e :: bind name a es

/-- The bindings in `es` without the one of `name`. -/
def unbind (name : String) : List (String × α) → List (String × α)
  | [] => []
  | e :: es => if e.1 = name then es else e :: unbind name es

theorem mem_keys_bind {name : String} {a : α} {es : List (String × α)} {k : String} :
    k ∈ (bind name a es).map (·.1) ↔ k = name ∨ k ∈ es.map (·.1) := by
  induction es with
  | nil => simp [bind]
  | cons e es ih =>
    by_cases h : e.1 = name
    · simp [bind, h]
    · rw [bind, if_neg h, List.map_cons, List.mem_cons, List.map_cons, List.mem_cons, ih]
      exact or_left_comm

theorem nodup_keys_bind {name : String} {a : α} {es : List (String × α)}
    (h : (es.map (·.1)).Nodup) : ((bind name a es).map (·.1)).Nodup := by
  induction es with
  | nil => simp [bind]
  | cons e es ih =>
    simp only [List.map_cons, List.nodup_cons] at h
    by_cases he : e.1 = name
    · rw [bind, if_pos he, List.map_cons, List.nodup_cons]
      exact ⟨he ▸ h.1, h.2⟩
    · simp only [bind, if_neg he, List.map_cons, List.nodup_cons, mem_keys_bind]
      exact ⟨fun hk => hk.elim he h.1, ih h.2⟩

theorem mem_keys_of_unbind {name : String} {es : List (String × α)} {k : String}
    (h : k ∈ (unbind name es).map (·.1)) : k ∈ es.map (·.1) := by
  induction es with
  | nil => simp [unbind] at h
  | cons e es ih =>
    by_cases he : e.1 = name
    · rw [unbind, if_pos he] at h
      exact List.mem_cons_of_mem _ h
    · rw [unbind, if_neg he] at h
      rcases List.mem_cons.1 h with rfl | h
      · exact List.mem_cons_self
      · exact List.mem_cons_of_mem _ (ih h)

theorem nodup_keys_unbind {name : String} {es : List (String × α)}
    (h : (es.map (·.1)).Nodup) : ((unbind name es).map (·.1)).Nodup := by
  induction es with
  | nil => simp [unbind]
  | cons e es ih =>
    simp only [List.map_cons, List.nodup_cons] at h
    by_cases he : e.1 = name
    · simpa [unbind, he] using h.2
    · simp only [unbind, if_neg he, List.map_cons, List.nodup_cons]
      exact ⟨fun hk => h.1 (mem_keys_of_unbind hk), ih h.2⟩

/-- The table without bindings. -/
def empty : Table α := ⟨[], List.nodup_nil⟩

instance : Inhabited (Table α) := ⟨empty⟩

/-- How many names are bound. -/
def size (t : Table α) : Nat :=
  t.entries.length

/-- The bound names. -/
def names (t : Table α) : List String :=
  t.entries.map (·.1)

/-- The values of the bound names. -/
def values (t : Table α) : List α :=
  t.entries.map (·.2)

/-- The value of `name`. -/
def get? (t : Table α) (name : String) : Option α :=
  t.entries.lookup name

/-- Whether `name` is bound. -/
def contains (t : Table α) (name : String) : Bool :=
  (t.get? name).isSome

/-- The table in which `name` is bound to `a`. -/
def set (t : Table α) (name : String) (a : α) : Table α :=
  ⟨bind name a t.entries, nodup_keys_bind t.distinct⟩

/-- The table in which `name` is not bound. -/
def erase (t : Table α) (name : String) : Table α :=
  ⟨unbind name t.entries, nodup_keys_unbind t.distinct⟩

/-- The table of a list of bindings; of several bindings of a name the last one counts. -/
def ofList (es : List (String × α)) : Table α :=
  es.foldl (fun t e => t.set e.1 e.2) empty

theorem lookup_bind_self (name : String) (a : α) (es : List (String × α)) :
    (bind name a es).lookup name = some a := by
  induction es with
  | nil => simp [bind]
  | cons e es ih =>
    by_cases h : e.1 = name
    · simp [bind, h]
    · rw [bind, if_neg h, List.lookup_cons, beq_false_of_ne (Ne.symm h)]
      exact ih

theorem lookup_bind_of_ne {name k : String} (a : α) (es : List (String × α)) (h : k ≠ name) :
    (bind name a es).lookup k = es.lookup k := by
  induction es with
  | nil => simp [bind, h]
  | cons e es ih => by_cases he : e.1 = name <;> grind [bind]

@[simp] theorem get?_set_self (t : Table α) (name : String) (a : α) :
    (t.set name a).get? name = some a :=
  lookup_bind_self name a t.entries

theorem get?_set_of_ne {t : Table α} {name k : String} (a : α) (h : k ≠ name) :
    (t.set name a).get? k = t.get? k :=
  lookup_bind_of_ne a t.entries h

end Table

end PoolScript
