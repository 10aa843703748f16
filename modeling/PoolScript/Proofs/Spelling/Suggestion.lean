import Mathlib.Data.List.MinMax
import PoolScript.Machine

/-!
# Suggestions and the order of tables

The name that is suggested for one that is not known is, among the known names that are nearest to
it and near enough, the first one (`closest?_eq_find?`): one of the script, or else one of the host,
or else one of an intrinsic. In what order the functions of the script are looked through, and those
of the host, is not for anyone to rely on (`Code.Reorders`).

Whatever the order is, a call of a name that is not known fails with the nearest known name, if one
is near enough. It fails in the same way for every order unless the order has to decide between
two names of the script, or between two of the host when none of the script is as near
(`Machine.call_unknown`). Then it does decide (`Code.order_decides`).
-/

namespace PoolScript

namespace Spelling

variable {name v : String} {cs cs' : List String} {threshold : Nat}

/-- Whether `v` is near enough to `name`, and no candidate is nearer. -/
def isNearest (name : String) (candidates : List String) (threshold : Nat) (v : String) : Bool :=
  distance name v ≤ threshold ∧ ∀ u ∈ candidates, distance name v ≤ distance name u

theorem isNearest_iff :
    isNearest name cs threshold v ↔
      distance name v ≤ threshold ∧ ∀ u ∈ cs, distance name v ≤ distance name u :=
  decide_eq_true_iff

theorem isNearest_congr (h : ∀ u, u ∈ cs ↔ u ∈ cs') :
    isNearest name cs threshold = isNearest name cs' threshold := by
  funext v
  simp only [isNearest, h]

/-- The first of the least elements is the first of the elements that are least. -/
theorem argmin_eq_find? {α : Type} (f : α → Nat) (l : List α) :
    l.argmin f = l.find? fun a => ∀ b ∈ l, f a ≤ f b := by
  induction l with
  | nil => rfl
  | cons a l ih =>
    rw [List.argmin_cons, List.find?_cons]
    by_cases ha : ∀ b ∈ l, f a ≤ f b
    · -- The first element is least, and the later ones do not come before it.
      have hleast : ∀ b ∈ a :: l, f a ≤ f b := List.forall_mem_cons.2 ⟨le_rfl, ha⟩
      rw [decide_eq_true hleast]
      cases hl : l.argmin f with
      | none => rfl
      | some c => exact if_neg (not_lt.2 (ha c (List.argmin_mem hl)))
    · rw [decide_eq_false fun h => ha (List.forall_mem_cons.1 h).2]
      obtain ⟨b, hb, hlt⟩ : ∃ b ∈ l, f b < f a := by simpa using ha
      have hfind : (l.find? fun c => ∀ d ∈ a :: l, f c ≤ f d) =
          l.find? fun c => ∀ d ∈ l, f c ≤ f d := by
        refine congrArg (l.find? ·) (funext fun c => decide_eq_decide.2 ?_)
        rw [List.forall_mem_cons]
        exact and_iff_right_of_imp fun h => ((h b hb).trans_lt hlt).le
      rw [hfind, ← ih]
      cases hl : l.argmin f with
      | none => exact absurd (List.argmin_eq_none.1 hl ▸ hb) List.not_mem_nil
      | some c => exact if_pos ((List.le_of_mem_argmin hb hl).trans_lt hlt)

theorem foldl_nearer (near : List (Nat × String)) :
    near.foldl nearer none = near.argmin Prod.fst := by
  refine congrFun (congrFun (congrArg _ ?_) _) _
  funext best next
  cases best <;> rfl

/-- What is suggested is the first of the nearest candidates. -/
theorem closest?_eq_find? (name : String) (cs : List String) (threshold : Nat) :
    closest? name cs threshold = cs.find? (isNearest name cs threshold) := by
  -- A candidate that is not near enough is not nearer than one that is.
  have hnear (v : String) : (distance name v ≤ threshold ∧
      ∀ u ∈ (cs.map fun c => (distance name c, c)).filter (·.1 ≤ threshold),
        distance name v ≤ u.1) ↔ isNearest name cs threshold v := by
    rw [isNearest_iff]
    refine and_congr_right fun hv => ⟨fun h u hu => ?_, fun h u hu => ?_⟩
    · by_cases hd : distance name u ≤ threshold
      · exact h (distance name u, u) (by simpa [hd] using hu)
      · omega
    · obtain ⟨c, hc, rfl⟩ := List.mem_map.1 (List.mem_filter.1 hu).1
      exact h c hc
  rw [closest?, foldl_nearer, argmin_eq_find?, List.find?_filter, List.find?_map, Option.map_map]
  simp only [Function.comp_def, decide_eq_true_eq, hnear, Bool.decide_eq_true, Option.map_id']

theorem closest?_eq_some (h : closest? name cs threshold = some v) :
    v ∈ cs ∧ isNearest name cs threshold v := by
  rw [closest?_eq_find?] at h
  exact ⟨List.mem_of_find?_eq_some h, List.find?_some h⟩

/-- Nothing is suggested only when no candidate is near enough. -/
theorem closest?_eq_none (h : closest? name cs threshold = none) (hv : v ∈ cs) :
    threshold < distance name v := by
  rw [closest?, Option.map_eq_none_iff, foldl_nearer, List.argmin_eq_none,
    List.filter_eq_nil_iff] at h
  simpa using h _ (List.mem_map_of_mem hv)

/-- Where there is one of a kind, it does not matter in what order it is looked for. -/
theorem find?_eq_of_perm {p : String → Bool} (h : cs.Perm cs')
    (hp : ∀ v ∈ cs, ∀ w ∈ cs, p v → p w → v = w) : cs'.find? p = cs.find? p := by
  cases hf : cs'.find? p with
  | none =>
    rw [eq_comm, List.find?_eq_none]
    exact fun v hv => List.find?_eq_none.1 hf v (h.mem_iff.1 hv)
  | some w =>
    have hw := h.mem_iff.2 (List.mem_of_find?_eq_some hf)
    obtain ⟨v, hv⟩ := Option.isSome_iff_exists.1 (List.find?_isSome.2 ⟨w, hw, List.find?_some hf⟩)
    rw [hv, hp v (List.mem_of_find?_eq_some hv) w hw (List.find?_some hv) (List.find?_some hf)]

end Spelling

namespace Table

variable {α : Type}

/-- The table with its bindings in another order. -/
def reorder (t : Table α) (es : List (String × α)) (h : es.Perm t.entries) : Table α :=
  ⟨es, (h.map (·.1)).nodup_iff.2 t.distinct⟩

theorem get?_eq_none {t : Table α} {name : String} : t.get? name = none ↔ name ∉ t.names := by
  rw [get?, List.lookup_eq_none_iff, names, List.mem_map]
  refine ⟨fun h ⟨e, he, hname⟩ => ?_, fun h e he => bne_iff_ne.2 fun hname => h ⟨e, he, hname.symm⟩⟩
  exact bne_iff_ne.1 (h e he) hname.symm

/-- Any name of a table may come first. -/
theorem exists_perm_cons {t : Table α} {name : String} (h : name ∈ t.names) :
    ∃ es : List (String × α), es.Perm t.entries ∧ ∃ rest, es.map (·.1) = name :: rest := by
  obtain ⟨e, he, rfl⟩ := List.mem_map.1 h
  obtain ⟨us, vs, hs⟩ := List.mem_iff_append.1 he
  exact ⟨e :: (us ++ vs), hs ▸ List.perm_middle.symm, _, rfl⟩

end Table

namespace Code

open Spelling (distance)

variable {code code' : Code} {name v : String}

/-- The functions of `code'` are those of `code`, in any order. -/
structure Reorders (code code' : Code) : Prop where
  functions : code'.functions.entries.Perm code.functions.entries
  host : code'.host.entries.Perm code.host.entries
  maxDepth : code'.maxDepth = code.maxDepth

/-- The names that a call can be of. -/
def known (code : Code) : List String :=
  code.functions.names ++ code.host.names ++ Intrinsic.all.map Intrinsic.name

/-- `v` is not more than two edits away from `name`, and no known name is nearer. -/
def Nearest (code : Code) (name v : String) : Prop :=
  distance name v ≤ 2 ∧ ∀ u ∈ code.known, distance name v ≤ distance name u

/-- What can be suggested for `name`: a known name that is nearest, and nothing only if all are too
    far away. -/
def Suggests (code : Code) (name : String) : Option String → Prop
  | some v => v ∈ code.known ∧ code.Nearest name v
  | none => ∀ v ∈ code.known, 2 < distance name v

/-- Two functions of the script are nearest to `name`, or two of the host and none of the
    script. -/
def Contested (code : Code) (name : String) : Prop :=
  ∃ v w, v ≠ w ∧ code.Nearest name v ∧ code.Nearest name w ∧
    (v ∈ code.functions.names ∧ w ∈ code.functions.names ∨
      v ∈ code.host.names ∧ w ∈ code.host.names ∧
        ∀ u ∈ code.functions.names, ¬code.Nearest name u)

theorem nearest_iff : code.Nearest name v ↔ Spelling.isNearest name code.known 2 v :=
  Spelling.isNearest_iff.symm

/-- A nearest name is looked for among those of the script, then those of the host, then those of
    the intrinsics. -/
theorem suggestion?_eq (code : Code) (name : String) :
    code.suggestion? name =
      ((code.functions.names.find? (Spelling.isNearest name code.known 2)).or
        (code.host.names.find? (Spelling.isNearest name code.known 2))).or
        ((Intrinsic.all.map Intrinsic.name).find? (Spelling.isNearest name code.known 2)) := by
  rw [← List.find?_append, ← List.find?_append]
  exact Spelling.closest?_eq_find? ..

theorem suggestion?_suggests (code : Code) (name : String) :
    code.Suggests name (code.suggestion? name) := by
  cases h : code.suggestion? name with
  | none => exact fun v hv => Spelling.closest?_eq_none h hv
  | some v => exact (Spelling.closest?_eq_some h).imp_right nearest_iff.2

namespace Reorders

variable (h : code.Reorders code')

include h

theorem functions_names : code'.functions.names.Perm code.functions.names :=
  h.functions.map _

theorem host_names : code'.host.names.Perm code.host.names :=
  h.host.map _

theorem known : code'.known.Perm code.known :=
  (h.functions_names.append h.host_names).append_right _

theorem isNearest_eq (name : String) :
    Spelling.isNearest name code'.known 2 = Spelling.isNearest name code.known 2 :=
  Spelling.isNearest_congr fun _ => h.known.mem_iff

theorem suggests {name : String} {o : Option String} (ho : code'.Suggests name o) :
    code.Suggests name o := by
  cases o with
  | none => exact fun v hv => ho v (h.known.mem_iff.2 hv)
  | some v =>
    have hn := nearest_iff.1 ho.2
    rw [h.isNearest_eq] at hn
    exact ⟨h.known.mem_iff.1 ho.1, nearest_iff.2 hn⟩

/-- The order does not matter unless it has to decide. -/
theorem suggestion?_eq (hc : ¬code.Contested name) :
    code'.suggestion? name = code.suggestion? name := by
  have hfunctions : code'.functions.names.find? (Spelling.isNearest name code.known 2) =
      code.functions.names.find? (Spelling.isNearest name code.known 2) := by
    refine Spelling.find?_eq_of_perm h.functions_names.symm fun v hv w hw hnv hnw => ?_
    by_contra hvw
    exact hc ⟨v, w, hvw, nearest_iff.2 hnv, nearest_iff.2 hnw, .inl ⟨hv, hw⟩⟩
  rw [Code.suggestion?_eq, Code.suggestion?_eq, h.isNearest_eq, hfunctions]
  cases hf : code.functions.names.find? (Spelling.isNearest name code.known 2) with
  | some v => rfl
  | none =>
    -- No name of the script is nearest, so that those of the host come into question.
    have hnone (u) (hu : u ∈ code.functions.names) : ¬code.Nearest name u := fun hn =>
      List.find?_eq_none.1 hf u hu (nearest_iff.1 hn)
    rw [Spelling.find?_eq_of_perm h.host_names.symm fun v hv w hw hnv hnw => ?_]
    by_contra hvw
    exact hc ⟨v, w, hvw, nearest_iff.2 hnv, nearest_iff.2 hnw, .inr ⟨hv, hw, hnone⟩⟩

end Reorders

/-! ### Where the order decides -/

/-- A nearest function of the script can be the one that is suggested. -/
theorem exists_reorders_functions (hv : v ∈ code.functions.names) (hn : code.Nearest name v) :
    ∃ code', code.Reorders code' ∧ code'.suggestion? name = some v := by
  obtain ⟨es, hes, rest, hrest⟩ := Table.exists_perm_cons hv
  let code' : Code := { code with functions := code.functions.reorder es hes }
  have h : code.Reorders code' := ⟨hes, .refl _, rfl⟩
  have hnames : code'.functions.names = v :: rest := hrest
  refine ⟨code', h, ?_⟩
  rw [suggestion?_eq, h.isNearest_eq, hnames, List.find?_cons_of_pos (nearest_iff.1 hn)]
  rfl

/-- So can a nearest function of the host when none of the script is as near. -/
theorem exists_reorders_host (hv : v ∈ code.host.names) (hn : code.Nearest name v)
    (hnone : ∀ u ∈ code.functions.names, ¬code.Nearest name u) :
    ∃ code', code.Reorders code' ∧ code'.suggestion? name = some v := by
  obtain ⟨es, hes, rest, hrest⟩ := Table.exists_perm_cons hv
  let code' : Code := { code with host := Table.reorder code.host es hes }
  have h : code.Reorders code' := ⟨.refl _, hes, rfl⟩
  have hnames : code'.host.names = v :: rest := hrest
  have hfunctions : code'.functions.names.find? (Spelling.isNearest name code.known 2) = none :=
    List.find?_eq_none.2 fun u hu hu' => hnone u hu (nearest_iff.2 hu')
  refine ⟨code', h, ?_⟩
  rw [suggestion?_eq, h.isNearest_eq, hfunctions, hnames,
    List.find?_cons_of_pos (nearest_iff.1 hn)]
  rfl

/-- Where the order has to decide, some order decides otherwise. -/
theorem Contested.exists_reorders (h : code.Contested name) :
    ∃ code', code.Reorders code' ∧ code'.suggestion? name ≠ code.suggestion? name := by
  obtain ⟨v, w, hvw, hnv, hnw, hnames⟩ := h
  have suggested {u : String} (hu : u ∈ code.functions.names ∨
      u ∈ code.host.names ∧ ∀ u ∈ code.functions.names, ¬code.Nearest name u)
      (hn : code.Nearest name u) :
      ∃ code', code.Reorders code' ∧ code'.suggestion? name = some u :=
    hu.elim (exists_reorders_functions · hn) fun hu => exists_reorders_host hu.1 hn hu.2
  obtain ⟨c, hc, hcv⟩ := suggested (hnames.imp (·.1) fun h => ⟨h.1, h.2.2⟩) hnv
  obtain ⟨d, hd, hdw⟩ := suggested (hnames.imp (·.2) fun h => ⟨h.2.1, h.2.2⟩) hnw
  by_cases hs : code.suggestion? name = some v
  · exact ⟨d, hd, fun h => hvw (Option.some.inj ((hs.symm.trans h.symm).trans hdw))⟩
  · exact ⟨c, hc, fun h => hs (h.symm.trans hcv)⟩

/-! ### Calls of names that are not known -/

/-- The name is that of no function. -/
structure Unknown (code : Code) (callee : String) : Prop where
  intrinsic : Intrinsic.ofName? callee = none
  host : code.host.get? callee = none
  script : code.functions.get? callee = none

theorem Reorders.unknown (h : code.Reorders code') {callee : String} (hu : code.Unknown callee) :
    code'.Unknown callee where
  intrinsic := hu.intrinsic
  host := Table.get?_eq_none.2 fun hm =>
    Table.get?_eq_none.1 hu.host (h.host_names.mem_iff.1 hm)
  script := Table.get?_eq_none.2 fun hm =>
    Table.get?_eq_none.1 hu.script (h.functions_names.mem_iff.1 hm)

end Code

namespace Machine

variable {code : Code} {callee : String}

theorem call_of_unknown (hu : code.Unknown callee) (name : String) (args : List Value)
    (k : Cont .value) (s : State) :
    call code name callee args k s =
      (.failing (.of (.undefinedFunction name (code.suggestion? callee))) k,
        s.releaseAll args) := by
  rw [call, hu.intrinsic]
  simp only [hu.host, hu.script]

/-- A call of a name that is not known fails with the nearest known name, if one is near enough,
    whatever the order of the tables is. It fails in the same way for every order unless the order
    has to decide. -/
theorem call_unknown (code : Code) {callee : String} (hu : code.Unknown callee) (name : String)
    (args : List Value) (k : Cont .value) (s : State) :
    (∀ code', code.Reorders code' → ∃ suggestion, code.Suggests callee suggestion ∧
      call code' name callee args k s =
        (.failing (.of (.undefinedFunction name suggestion)) k, s.releaseAll args)) ∧
    ((∀ code', code.Reorders code' →
      call code' name callee args k s = call code name callee args k s) ↔
        ¬code.Contested callee) := by
  refine ⟨fun code' h => ?_, fun hsame hc => ?_, fun hc code' h => ?_⟩
  · exact ⟨_, h.suggests (code'.suggestion?_suggests callee), call_of_unknown (h.unknown hu) ..⟩
  · obtain ⟨code', h, hne⟩ := hc.exists_reorders
    have hcall := hsame code' h
    rw [call_of_unknown hu, call_of_unknown (h.unknown hu), Prod.mk.injEq] at hcall
    injection hcall.1 with hfailure
    injection hfailure with hfault
    injection hfault with _ hsuggestion
    exact hne hsuggestion
  · rw [call_of_unknown hu, call_of_unknown (h.unknown hu), h.suggestion?_eq hc]

end Machine

namespace Code

/-- Functions of these names in a script, and of those in a host. -/
def named (script host : List String) : Code where
  functions := .ofList (script.map fun n => (n, ⟨n, [], [], 1⟩))
  host := Registry.add .empty (host.map fun n => ⟨n, [], .done⟩)
  maxDepth := 1
  platform := .plain

/-- A function of the script goes before one of the host that is as near. -/
theorem named_call_unknown :
    (named ["ax"] ["xb"]).Unknown "ab" ∧ ¬(named ["ax"] ["xb"]).Contested "ab" ∧
    ∀ code', (named ["ax"] ["xb"]).Reorders code' →
      Machine.call code' "ab" "ab" [] .halt (.empty 0 0) =
        (.failing (.of (.undefinedFunction "ab" (some "ax"))) .halt,
          (State.empty 0 0).releaseAll []) := by
  have hu : (named ["ax"] ["xb"]).Unknown "ab" := by
    constructor <;> decide +kernel
  have hsuggestion : (named ["ax"] ["xb"]).suggestion? "ab" = some "ax" := by decide +kernel
  have hc : ¬(named ["ax"] ["xb"]).Contested "ab" := by
    have hscript : (named ["ax"] ["xb"]).functions.names = ["ax"] := by decide +kernel
    have hhost : (named ["ax"] ["xb"]).host.names = ["xb"] := by decide +kernel
    rintro ⟨v, w, hvw, -, -, ⟨hv, hw⟩ | ⟨hv, hw, -⟩⟩
    · rw [hscript, List.mem_singleton] at hv hw
      exact hvw (hv.trans hw.symm)
    · rw [hhost, List.mem_singleton] at hv hw
      exact hvw (hv.trans hw.symm)
  refine ⟨hu, hc, fun code' h => ?_⟩
  have hsame := (Machine.call_unknown (named ["ax"] ["xb"]) hu "ab" [] .halt (.empty 0 0)).2.2 hc
  rw [hsame code' h, Machine.call_of_unknown hu, hsuggestion]

/-- Of two functions of the script that are equally near the one that is looked at first is
    suggested. -/
theorem order_decides :
    (named ["ax", "xb"] []).Reorders (named ["xb", "ax"] []) ∧
    (named ["ax", "xb"] []).Unknown "ab" ∧
    (named ["ax", "xb"] []).suggestion? "ab" = some "ax" ∧
    (named ["xb", "ax"] []).suggestion? "ab" = some "xb" :=
  ⟨⟨.swap .., .refl _, rfl⟩, ⟨by decide +kernel, by decide +kernel, by decide +kernel⟩,
    by decide +kernel, by decide +kernel⟩

end Code

end PoolScript
