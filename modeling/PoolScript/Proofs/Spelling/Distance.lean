import Mathlib.Order.Bounds.Basic
import Mathlib.Order.MinMax
import PoolScript.Spelling

/-!
# The distance of names

The distance that is found row by row is the least number of characters to be inserted, deleted or
replaced, one after another and anywhere in the name (`Edits`), and the value of the plain
recursion for it (`editDistance`). So it is a metric on names (`distance_isLeast`).

Between the two stand *alignments* (`Aligned`): two names written below one another, with gaps,
such that every column costs an edit or none. They are what the recursion minimises over, they can
be read backwards, and two of them go together to a third one (`Aligned.trans`).

* `editDistance_aligned`, `editDistance_le`: the recursion finds the cheapest alignment;
* `Edits.aligned`, `Aligned.edits`: alignments are as cheap as edits;
* `nextRow_row`: what a row of the computation holds, and so what the last one ends with.
-/

namespace PoolScript.Spelling

variable {as bs cs ds : List Char} {m n : Nat}

/-! ### Edits -/

/-- A character is inserted, deleted or replaced. -/
inductive Edit : List Char → List Char → Prop
  | insert (us vs : List Char) (c : Char) : Edit (us ++ vs) (us ++ c :: vs)
  | delete (us vs : List Char) (c : Char) : Edit (us ++ c :: vs) (us ++ vs)
  | replace (us vs : List Char) (c d : Char) : Edit (us ++ c :: vs) (us ++ d :: vs)

/-- So many edits lead from one text to the other. -/
inductive Edits : Nat → List Char → List Char → Prop
  | nil (as : List Char) : Edits 0 as as
  | snoc {n : Nat} {as bs cs : List Char} : Edits n as bs → Edit bs cs → Edits (n + 1) as cs

/-- An edit behind the first character. -/
theorem Edit.cons (h : Edit as bs) (c : Char) : Edit (c :: as) (c :: bs) := by
  cases h with
  | insert us vs d => exact .insert (c :: us) vs d
  | delete us vs d => exact .delete (c :: us) vs d
  | replace us vs d e => exact .replace (c :: us) vs d e

/-- Edits behind the first character. -/
theorem Edits.cons (h : Edits n as bs) (c : Char) : Edits n (c :: as) (c :: bs) := by
  induction h with
  | nil as => exact .nil (c :: as)
  | snoc _ h ih => exact ih.snoc (h.cons c)

/-! ### Alignments -/

/-- What it costs to write `a` above `b`. -/
def cost (a b : Char) : Nat :=
  if a = b then 0 else 1

theorem cost_self (a : Char) : cost a a = 0 :=
  if_pos rfl

theorem cost_comm (a b : Char) : cost a b = cost b a := by
  simp only [cost, eq_comm]

theorem cost_le_one (a b : Char) : cost a b ≤ 1 := by
  rw [cost]
  split <;> omega

/-- To replace a character at once costs no more than to do it in two steps. -/
theorem cost_triangle (a b c : Char) : cost a c ≤ cost a b + cost b c := by
  by_cases h : a = b
  · subst h
    omega
  · have := cost_le_one a c
    rw [cost.eq_def a b, if_neg h]
    omega

/-- Two texts are written below one another, with gaps, at the given cost. -/
inductive Aligned : Nat → List Char → List Char → Prop
  | nil : Aligned 0 [] []
  | pair {n : Nat} {as bs : List Char} (a b : Char) :
      Aligned n as bs → Aligned (n + cost a b) (a :: as) (b :: bs)
  | insert {n : Nat} {as bs : List Char} (b : Char) : Aligned n as bs → Aligned (n + 1) as (b :: bs)
  | delete {n : Nat} {as bs : List Char} (a : Char) : Aligned n as bs → Aligned (n + 1) (a :: as) bs

namespace Aligned

/-- A name is aligned with itself for nothing. -/
theorem refl (as : List Char) : Aligned 0 as as := by
  induction as with
  | nil => exact .nil
  | cons a as ih =>
    have h := ih.pair a a
    rwa [cost_self] at h

/-- An alignment read from the other name to this one. -/
theorem symm (h : Aligned n as bs) : Aligned n bs as := by
  induction h with
  | nil => exact .nil
  | pair a b _ ih => exact cost_comm a b ▸ ih.pair b a
  | insert b _ ih => exact ih.delete b
  | delete a _ ih => exact ih.insert a

/-- Alignments side by side. -/
theorem append (h : Aligned m as bs) (h' : Aligned n cs ds) :
    Aligned (m + n) (as ++ cs) (bs ++ ds) := by
  induction h with
  | nil => exact (Nat.zero_add n).symm ▸ h'
  | pair a b _ ih => exact Nat.add_right_comm .. ▸ ih.pair a b
  | insert b _ ih => exact Nat.add_right_comm .. ▸ ih.insert b
  | delete a _ ih => exact Nat.add_right_comm .. ▸ ih.delete a

/-- An alignment read backwards. -/
theorem reverse (h : Aligned n as bs) : Aligned n as.reverse bs.reverse := by
  induction h with
  | nil => exact .nil
  | pair a b _ ih =>
    have hab : Aligned (cost a b) [a] [b] := Nat.zero_add (cost a b) ▸ Aligned.nil.pair a b
    rw [List.reverse_cons, List.reverse_cons]
    exact ih.append hab
  | insert b _ ih =>
    have h := ih.append (.insert b .nil)
    rwa [List.append_nil, ← List.reverse_cons] at h
  | delete a _ ih =>
    have h := ih.append (.delete a .nil)
    rwa [List.append_nil, ← List.reverse_cons] at h

/-- Two alignments with a text in common go together to one of the other two texts. -/
theorem trans {m n : Nat} {as bs cs : List Char} (h : Aligned m as bs) (h' : Aligned n bs cs) :
    ∃ k ≤ m + n, Aligned k as cs := by
  match h, h' with
  | .nil, .nil => exact ⟨0, Nat.le_refl _, .nil⟩
  | .delete a h, h' =>
    obtain ⟨k, hk, ht⟩ := h.trans h'
    exact ⟨k + 1, by omega, ht.delete a⟩
  | h, .insert c h' =>
    obtain ⟨k, hk, ht⟩ := h.trans h'
    exact ⟨k + 1, by omega, ht.insert c⟩
  | .insert b h, .delete _ h' =>
    obtain ⟨k, hk, ht⟩ := h.trans h'
    exact ⟨k, by omega, ht⟩
  | .insert b h, .pair _ c h' =>
    obtain ⟨k, hk, ht⟩ := h.trans h'
    exact ⟨k + 1, by omega, ht.insert c⟩
  | .pair a b h, .delete _ h' =>
    obtain ⟨k, hk, ht⟩ := h.trans h'
    exact ⟨k + 1, by omega, ht.delete a⟩
  | .pair a b h, .pair _ c h' =>
    obtain ⟨k, hk, ht⟩ := h.trans h'
    have := cost_triangle a b c
    exact ⟨k + cost a c, by omega, ht.pair a c⟩
termination_by as.length + bs.length + cs.length

end Aligned

/-! ### Alignments and edits -/

/-- One edit is an alignment with one column that costs something. -/
theorem Edit.aligned (h : Edit as bs) : ∃ k ≤ 1, Aligned k as bs := by
  cases h with
  | insert us vs c => exact ⟨_, by omega, (Aligned.refl us).append (.insert c (.refl vs))⟩
  | delete us vs c => exact ⟨_, by omega, (Aligned.refl us).append (.delete c (.refl vs))⟩
  | replace us vs c d =>
    have := cost_le_one c d
    exact ⟨_, by omega, (Aligned.refl us).append (.pair c d (.refl vs))⟩

/-- Edits one after another are as cheap as an alignment, since alignments go together. -/
theorem Edits.aligned (h : Edits n as bs) : ∃ k ≤ n, Aligned k as bs := by
  induction h with
  | nil as => exact ⟨0, Nat.le_refl 0, .refl as⟩
  | snoc _ h ih =>
    obtain ⟨k, hk, ha⟩ := ih
    obtain ⟨j, hj, hb⟩ := h.aligned
    obtain ⟨i, hi, hc⟩ := ha.trans hb
    exact ⟨i, by omega, hc⟩

/-- The columns of an alignment are edits, to be made from left to right. -/
theorem Aligned.edits (h : Aligned n as bs) : Edits n as bs := by
  induction h with
  | nil => exact .nil []
  | @pair n as bs a b _ ih =>
    rw [cost]
    split
    · next hab => exact hab ▸ ih.cons a
    · exact (ih.cons a).snoc (.replace [] bs a b)
  | @insert n as bs b _ ih => exact ih.snoc (.insert [] bs b)
  | @delete n as bs a _ ih => exact (ih.cons a).snoc (.delete [] bs a)

/-! ### The recursion -/

/-- The distance of two texts by their first characters: the first one of either text is passed
    over at the cost of an edit, or those of both are written below one another. -/
def editDistance : List Char → List Char → Nat
  | [], bs => bs.length
  | a :: as, [] => (a :: as).length
  | a :: as, b :: bs =>
    min (min (editDistance as (b :: bs) + 1) (editDistance (a :: as) bs + 1))
      (editDistance as bs + if a = b then 0 else 1)
termination_by as bs => as.length + bs.length

/-- To get a name from nothing, all of it has to be inserted. -/
theorem editDistance_nil_left (bs : List Char) : editDistance [] bs = bs.length := by
  rw [editDistance]

/-- To get nothing from a name, all of it has to be deleted. -/
theorem editDistance_nil_right (as : List Char) : editDistance as [] = as.length := by
  cases as <;> rw [editDistance]

/-- The recursion: a first character is deleted, inserted or replaced. -/
theorem editDistance_cons_cons (a b : Char) (as bs : List Char) :
    editDistance (a :: as) (b :: bs) =
      min (min (editDistance as (b :: bs) + 1) (editDistance (a :: as) bs + 1))
        (editDistance as bs + cost a b) := by
  rw [editDistance, cost]

/-- An alignment of nothing with a name. -/
theorem aligned_length_right (bs : List Char) : Aligned bs.length [] bs := by
  induction bs with
  | nil => exact .nil
  | cons b bs ih => exact ih.insert b

/-- The recursion comes to the cost of an alignment. -/
theorem editDistance_aligned (as bs : List Char) : Aligned (editDistance as bs) as bs := by
  fun_induction editDistance as bs with
  | case1 bs => exact aligned_length_right bs
  | case2 a as => exact (aligned_length_right (a :: as)).symm
  | case3 a as b bs ihd ihi ihp =>
    -- The minimum is one of the three, and each of them is a column in front of an alignment.
    rcases min_choice (min (editDistance as (b :: bs) + 1) (editDistance (a :: as) bs + 1))
      (editDistance as bs + if a = b then 0 else 1) with h | h <;> rw [h]
    · rcases min_choice (editDistance as (b :: bs) + 1) (editDistance (a :: as) bs + 1) with
        h | h <;> rw [h]
      · exact ihd.delete a
      · exact ihi.insert b
    · exact ihp.pair a b

/-- No alignment costs less. -/
theorem editDistance_le (h : Aligned n as bs) : editDistance as bs ≤ n := by
  induction h with
  | nil => rw [editDistance_nil_left, List.length_nil]
  | @pair n as bs a b _ ih =>
    rw [editDistance_cons_cons]
    exact (min_le_right _ _).trans (Nat.add_le_add_right ih _)
  | @insert n as bs b _ ih =>
    cases as with
    | nil =>
      rw [editDistance_nil_left] at ih ⊢
      exact Nat.succ_le_succ ih
    | cons a as =>
      rw [editDistance_cons_cons]
      exact ((min_le_left _ _).trans (min_le_right _ _)).trans (Nat.succ_le_succ ih)
  | @delete n as bs a _ ih =>
    cases bs with
    | nil =>
      rw [editDistance_nil_right] at ih ⊢
      exact Nat.succ_le_succ ih
    | cons b bs =>
      rw [editDistance_cons_cons]
      exact ((min_le_left _ _).trans (min_le_left _ _)).trans (Nat.succ_le_succ ih)

/-- The distance is the least number of edits. -/
theorem editDistance_isLeast (as bs : List Char) :
    IsLeast {n | Edits n as bs} (editDistance as bs) := by
  refine ⟨(editDistance_aligned as bs).edits, fun n hn => ?_⟩
  obtain ⟨k, hk, ha⟩ := Edits.aligned hn
  exact (editDistance_le ha).trans hk

/-- The distance is symmetric: an alignment can be read both ways. -/
theorem editDistance_comm (as bs : List Char) : editDistance as bs = editDistance bs as :=
  Nat.le_antisymm (editDistance_le (editDistance_aligned bs as).symm)
    (editDistance_le (editDistance_aligned as bs).symm)

/-- The distance satisfies the triangle inequality: alignments go together. -/
theorem editDistance_triangle (as bs cs : List Char) :
    editDistance as cs ≤ editDistance as bs + editDistance bs cs := by
  obtain ⟨k, hk, h⟩ := (editDistance_aligned as bs).trans (editDistance_aligned bs cs)
  exact (editDistance_le h).trans hk

/-- Only equal names have no distance. -/
theorem editDistance_eq_zero : editDistance as bs = 0 ↔ as = bs := by
  constructor
  · intro h
    have hn : Edits 0 as bs := h ▸ (editDistance_aligned as bs).edits
    cases hn
    rfl
  · rintro rfl
    exact Nat.le_zero.1 (editDistance_le (.refl as))

/-- The recursion may as well begin with the last characters. -/
theorem editDistance_reverse (as bs : List Char) :
    editDistance as.reverse bs.reverse = editDistance as bs := by
  refine Nat.le_antisymm (editDistance_le (editDistance_aligned as bs).reverse) ?_
  have h := (editDistance_aligned as.reverse bs.reverse).reverse
  rw [List.reverse_reverse, List.reverse_reverse] at h
  exact editDistance_le h

/-! ### Rows -/

/-- The distances of `as` to `qs` and to what comes of `qs` when the characters of `bs` are put in
    front of it one by one. The beginnings of names are written backwards here, so that the next
    character comes to the front. -/
def row (as qs : List Char) : List Char → List Nat
  | [] => [editDistance as qs]
  | b :: bs => editDistance as qs :: row as (b :: qs) bs

/-- The first number of a row is the distance to what was passed over. -/
theorem row_eq_cons (as qs bs : List Char) :
    row as qs bs = editDistance as qs :: (row as qs bs).tail := by
  cases bs <;> rfl

/-- The last number of a row is the distance to the whole name. -/
theorem getLast?_row (as qs bs : List Char) :
    (row as qs bs).getLast? = some (editDistance as (bs.reverse ++ qs)) := by
  induction bs generalizing qs with
  | nil => rfl
  | cons b bs ih =>
    rw [row, List.getLast?_cons, ih, List.reverse_cons, List.append_assoc]
    rfl

/-- The first row holds how long the beginnings of the second name are. -/
theorem row_nil (qs bs : List Char) : row [] qs bs = List.range' qs.length (bs.length + 1) := by
  induction bs generalizing qs with
  | nil => rw [row, editDistance_nil_left]; rfl
  | cons b bs ih => rw [row, editDistance_nil_left, ih]; rfl

/-- A row is filled from left to right: what stands to the left is of the new row, what is still
    there above and before it is of the old one. -/
theorem fill_row (a : Char) (as qs bs : List Char) :
    fill a (editDistance as qs) (editDistance (a :: as) qs) bs (row as qs bs).tail =
      (row (a :: as) qs bs).tail := by
  induction bs generalizing qs with
  | nil => rfl
  | cons b bs ih =>
    have hrow (ps : List Char) : (row ps qs (b :: bs)).tail = row ps (b :: qs) bs := rfl
    rw [hrow, hrow, row_eq_cons as, row_eq_cons (a :: as), fill, ← cost,
      ← editDistance_cons_cons, ih]

/-- The next row has the distances for one more character. -/
theorem nextRow_row (a : Char) (as bs : List Char) :
    nextRow bs (row as [] bs) a = row (a :: as) [] bs := by
  have hfirst : editDistance as [] + 1 = editDistance (a :: as) [] := by
    rw [editDistance_nil_right, editDistance_nil_right]
    rfl
  rw [row_eq_cons as, nextRow, hfirst, fill_row, ← row_eq_cons]

/-- Row by row the distances for the whole name are computed. -/
theorem foldl_nextRow_row (as ps bs : List Char) :
    as.foldl (nextRow bs) (row ps [] bs) = row (as.reverse ++ ps) [] bs := by
  induction as generalizing ps with
  | nil => rfl
  | cons a as ih =>
    rw [List.foldl_cons, nextRow_row, ih, List.reverse_cons, List.append_assoc]
    rfl

/-- The last entry of the last row is the distance of the names. -/
theorem distance_eq_editDistance (a b : String) :
    distance a b = editDistance a.toList b.toList := by
  have hfirst : List.range (b.toList.length + 1) = row [] [] b.toList := by
    rw [row_nil, List.range_eq_range']
    rfl
  rw [distance, hfirst, foldl_nextRow_row, getLast?_row, List.append_nil, List.append_nil,
    Option.getD_some, editDistance_reverse]

/-- The distance of two names is the least number of edits that lead from one to the other, and
    what the recursion says; it is a metric. -/
theorem distance_isLeast (a b : String) :
    IsLeast {n | Edits n a.toList b.toList} (distance a b) ∧
    distance a b = editDistance a.toList b.toList ∧
    (distance a b = 0 ↔ a = b) ∧
    distance a b = distance b a ∧
    ∀ c, distance a c ≤ distance a b + distance b c := by
  simp only [distance_eq_editDistance, true_and]
  exact ⟨editDistance_isLeast .., editDistance_eq_zero.trans String.toList_inj,
    editDistance_comm .., fun c => editDistance_triangle ..⟩

example : distance "kitten" "sitting" = 3 := by decide +kernel

end PoolScript.Spelling
