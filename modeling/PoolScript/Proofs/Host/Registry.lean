import PoolScript.Proofs.Session.Frames

/-!
# Registered functions

A host offers tables of functions one after the other (`Registry.afterAll`). A table is refused if
something is wrong with one of its functions (`Registry.Objection`). The first loop of
`Registry.register`, which finds that out, hands the registry on as it was given it, so that nothing
of a table that is refused is registered. Otherwise all of it is. So the registry holds the
functions of the tables that were accepted (`Registry.accepted`), each under a name of its own that
is no intrinsic's, and what was registered once stays.

* `inspectAll_registry`: the first loop leaves the registry alone;
* `refused_iff`: when a table is refused;
* `entries_afterAll`: what the registry holds;
* `registers_whole_tables`: what is known of the registry after any tables.
-/

namespace PoolScript

namespace Table

variable {α : Type} {t : Table α} {name : String} {a : α}

theorem get?_eq_some_iff : t.get? name = some a ↔ (name, a) ∈ t.entries := by
  rw [get?, List.lookup_eq_some_iff]
  constructor
  · rintro ⟨before, behind, hentries, -⟩
    rw [hentries]
    exact List.mem_append_right before List.mem_cons_self
  · intro h
    obtain ⟨before, behind, hentries⟩ := List.append_of_mem h
    refine ⟨before, behind, hentries, fun e he => bne_iff_ne.2 fun hname => ?_⟩
    have hd := t.distinct
    rw [hentries, List.map_append, List.map_cons] at hd
    exact (List.nodup_append.1 hd).2.2 e.1 (List.mem_map_of_mem he) name List.mem_cons_self
      hname.symm

theorem entries_set (h : name ∉ t.names) (a : α) :
    (t.set name a).entries = t.entries ++ [(name, a)] := by
  have hbind (es : List (String × α)) (h : name ∉ es.map (·.1)) :
      bind name a es = es ++ [(name, a)] := by
    induction es with
    | nil => rfl
    | cons e es ih =>
      rw [List.map_cons, List.mem_cons, not_or] at h
      rw [bind, if_neg (Ne.symm h.1), ih h.2]
      rfl
  exact hbind t.entries h

end Table

namespace Registry

/-! ### What can be wrong -/

/-- What is wrong with a function `f` that comes behind the functions `before` in its table, when
    the names `taken` are registered. -/
inductive Objection (taken : List String) (before : List HostFunction) (f : HostFunction) :
    RegistrationFault → Prop
  | emptyName : f.name = "" → Objection taken before f .emptyName
  | intrinsic (i : Intrinsic) : i.name = f.name →
      Objection taken before f (.shadowsIntrinsic f.name)
  | registered : f.name ∈ taken → Objection taken before f (.registeredTwice f.name)
  | repeated (g : HostFunction) : g ∈ before → g.name = f.name →
      Objection taken before f (.registeredTwice f.name)

variable {taken : List String} {before fs : List HostFunction} {f g : HostFunction}
  {fault : RegistrationFault} {registry : Registry} {tables : List (List HostFunction)}

theorem ofName?_isSome_iff {name : String} :
    (Intrinsic.ofName? name).isSome ↔ ∃ i : Intrinsic, i.name = name := by
  have hall (i : Intrinsic) : i ∈ Intrinsic.all := by cases i <;> decide
  simp [Intrinsic.ofName?, List.find?_isSome, hall]

theorem contains_iff {name : String} : registry.contains name = true ↔ name ∈ registry.names := by
  rw [Table.contains, Option.isSome_iff_exists, Table.names, List.mem_map]
  constructor
  · rintro ⟨f, hf⟩
    exact ⟨_, Table.get?_eq_some_iff.1 hf, rfl⟩
  · rintro ⟨⟨name, f⟩, hf, rfl⟩
    exact ⟨f, Table.get?_eq_some_iff.2 hf⟩

/-! ### The first loop -/

/-- A turn of the first loop fails with what is wrong with its entry, and passes if nothing is. -/
theorem inspect_cases (registry : Registry) (before : List HostFunction) (f : HostFunction) :
    (∃ fault, registry.inspect before f = (.error (.registration fault), registry) ∧
        Objection registry.names before f fault) ∨
      (registry.inspect before f = (.ok (), registry) ∧
        ∀ fault, ¬Objection registry.names before f fault) := by
  -- The names are tried in the order of the checks, and a function that passes all of them has no
  -- objection.
  rw [inspect]
  split
  · next h => exact .inl ⟨_, rfl, .emptyName h⟩
  · next hempty =>
    split
    · next h =>
      obtain ⟨i, hi⟩ := ofName?_isSome_iff.1 h
      exact .inl ⟨_, rfl, .intrinsic i hi⟩
    · next hintrinsic =>
      split
      · next h =>
        refine .inl ⟨_, rfl, ?_⟩
        rcases Bool.or_eq_true_iff.1 h with h | h
        · obtain ⟨g, hg, hname⟩ := List.any_eq_true.1 h
          exact .repeated g hg (of_decide_eq_true hname)
        · exact .registered (contains_iff.1 h)
      · next htaken =>
        refine .inr ⟨rfl, ?_⟩
        rintro fault (h | ⟨i, h⟩ | h | ⟨g, hg, h⟩)
        · exact hempty h
        · exact hintrinsic (ofName?_isSome_iff.2 ⟨i, h⟩)
        · exact htaken (by rw [contains_iff.2 h, Bool.or_true])
        · exact htaken (by rw [List.any_eq_true.2 ⟨g, hg, decide_eq_true h⟩, Bool.true_or])

/-- Whatever the first loop comes to, the registry is as it was. -/
theorem inspectAll_registry (registry : Registry) (before fs : List HostFunction) :
    (inspectAll before fs registry).2 = registry := by
  induction fs generalizing before with
  | nil => rfl
  | cons f fs ih =>
    rw [inspectAll]
    rcases inspect_cases registry before f with ⟨fault, hf, -⟩ | ⟨hf, -⟩
    · rw [hf]
    · rw [hf]
      exact ih (before ++ [f])

/-- The first loop stops at the first entry that something is wrong with, and says what it is. -/
theorem inspectAll_cases (registry : Registry) (before fs : List HostFunction) :
    (∃ passed f behind fault, fs = passed ++ f :: behind ∧
        (inspectAll before fs registry).1 = .error (.registration fault) ∧
        Objection registry.names (before ++ passed) f fault) ∨
      ((inspectAll before fs registry).1 = .ok () ∧
        ∀ passed f behind fault, fs = passed ++ f :: behind →
          ¬Objection registry.names (before ++ passed) f fault) := by
  induction fs generalizing before with
  | nil => exact .inr ⟨rfl, fun passed f behind fault h => by simp at h⟩
  | cons g fs ih =>
    rw [inspectAll]
    rcases inspect_cases registry before g with ⟨fault, hg, ho⟩ | ⟨hg, hno⟩
    · rw [hg]
      exact .inl ⟨[], g, fs, fault, rfl, rfl, (List.append_nil before).symm ▸ ho⟩
    · rw [hg]
      rcases ih (before ++ [g]) with ⟨passed, f, behind, fault, rfl, he, ho⟩ | ⟨hok, hrest⟩
      · exact .inl ⟨g :: passed, f, behind, fault, rfl, he, List.append_cons .. ▸ ho⟩
      · refine .inr ⟨hok, fun passed f behind fault h => ?_⟩
        rcases List.cons_eq_append_iff.1 h with ⟨rfl, h⟩ | ⟨passed, rfl, h⟩
        · cases h
          exact (List.append_nil before).symm ▸ hno fault
        · exact List.append_cons before g passed ▸ hrest passed f behind fault (List.cons.inj h).2

/-! ### One table -/

/-- Nothing is wrong with any of the functions of a table. -/
def Acceptable (registry : Registry) (fs : List HostFunction) : Prop :=
  ∀ before f behind fault, fs = before ++ f :: behind → ¬Objection registry.names before f fault

/-- A table with a function that something is wrong with is refused, and the registry is as it was.
    Any other table is put in. -/
theorem register_cases (registry : Registry) (fs : List HostFunction) :
    (∃ before f behind fault, fs = before ++ f :: behind ∧
        Objection registry.names before f fault ∧
        registry.register fs = (.error (.registration fault), registry)) ∨
      (registry.Acceptable fs ∧ registry.register fs = (.ok (), registry.add fs)) := by
  rw [register]
  have hr := inspectAll_registry registry [] fs
  rcases inspectAll_cases registry [] fs with ⟨before, f, behind, fault, rfl, he, ho⟩ | ⟨hok, hno⟩
  · generalize inspectAll [] _ registry = x at hr he ⊢
    obtain ⟨result, registry'⟩ := x
    cases hr
    cases he
    exact .inl ⟨before, f, behind, fault, rfl, ho, rfl⟩
  · generalize inspectAll [] fs registry = x at hr hok ⊢
    obtain ⟨result, registry'⟩ := x
    cases hr
    cases hok
    exact .inr ⟨hno, rfl⟩

/-- A table is refused if and only if something is wrong with one of its functions. -/
theorem refused_iff : (∃ e, (registry.register fs).1 = .error e) ↔
    ∃ before f behind fault, fs = before ++ f :: behind ∧
      Objection registry.names before f fault := by
  rcases register_cases registry fs with ⟨before, f, behind, fault, hfs, ho, hr⟩ | ⟨hno, hr⟩
  · exact ⟨fun _ => ⟨before, f, behind, fault, hfs, ho⟩, fun _ => ⟨_, congrArg Prod.fst hr⟩⟩
  · constructor
    · rintro ⟨e, he⟩
      rw [hr] at he
      cases he
    · rintro ⟨before, f, behind, fault, hfs, ho⟩
      exact absurd ho (hno before f behind fault hfs)

/-- The functions of a table that nothing is wrong with have names, each one its own. -/
theorem Acceptable.names (h : registry.Acceptable fs) :
    (∀ f ∈ fs, f.name ≠ "" ∧ (∀ i : Intrinsic, i.name ≠ f.name) ∧ f.name ∉ registry.names) ∧
      (fs.map (·.name)).Nodup := by
  refine ⟨fun f hf => ?_, List.pairwise_map.2 (List.pairwise_iff_forall_sublist.2 ?_)⟩
  · obtain ⟨before, behind, hfs⟩ := List.append_of_mem hf
    exact ⟨fun he => h before f behind _ hfs (.emptyName he),
      fun i hi => h before f behind _ hfs (.intrinsic i hi),
      fun ht => h before f behind _ hfs (.registered ht)⟩
  · intro g f hs hname
    obtain ⟨before, rest, hfs, hg, hs⟩ := List.cons_sublist_iff.1 hs
    obtain ⟨middle, behind, rfl⟩ := List.append_of_mem (List.singleton_sublist.1 hs)
    refine h (before ++ middle) f behind _ ?_ (.repeated g (List.mem_append_left middle hg) hname)
    rw [hfs, List.append_assoc]

/-- The bindings of the functions of a table to their names. -/
def bindings (fs : List HostFunction) : List (String × HostFunction) :=
  fs.map fun f => (f.name, f)

theorem mem_bindings {name : String} : (name, f) ∈ bindings fs ↔ f ∈ fs ∧ f.name = name := by
  simp only [bindings, List.mem_map, Prod.mk.injEq]
  constructor
  · rintro ⟨g, hg, rfl, rfl⟩
    exact ⟨hg, rfl⟩
  · rintro ⟨hf, rfl⟩
    exact ⟨f, hf, rfl, rfl⟩

theorem entries_add (hd : (fs.map (·.name)).Nodup) (hn : ∀ f ∈ fs, f.name ∉ registry.names) :
    (registry.add fs).entries = registry.entries ++ bindings fs := by
  rw [add]
  induction fs generalizing registry with
  | nil => exact (List.append_nil _).symm
  | cons f fs ih =>
    obtain ⟨hf, hd⟩ := List.nodup_cons.1 hd
    have hentries : (registry.set f.name f).entries = registry.entries ++ [(f.name, f)] :=
      Table.entries_set (hn f List.mem_cons_self) f
    have hnames : (registry.set f.name f).names = registry.names ++ [f.name] := by
      rw [Table.names, hentries, List.map_append]
      rfl
    rw [List.foldl_cons, ih hd, hentries, List.append_assoc]
    · rfl
    · intro g hg
      rw [hnames, List.mem_append, List.mem_singleton, not_or]
      exact ⟨hn g (List.mem_cons_of_mem f hg), fun he => hf (List.mem_map.2 ⟨g, hg, he⟩)⟩

/-- A table that is accepted is registered as a whole, and nothing else changes. -/
theorem entries_of_register (h : (registry.register fs).1 = .ok ()) :
    (registry.register fs).2.entries = registry.entries ++ bindings fs := by
  rcases register_cases registry fs with ⟨before, f, behind, fault, -, -, hr⟩ | ⟨hno, hr⟩
  · rw [hr] at h
    cases h
  · rw [hr]
    exact entries_add hno.names.2 fun f hf => (hno.names.1 f hf).2.2

/-- A table that is refused leaves the registry as it was. -/
theorem register_of_error {e : Fault} (h : (registry.register fs).1 = .error e) :
    (registry.register fs).2 = registry := by
  rcases register_cases registry fs with ⟨before, f, behind, fault, -, -, hr⟩ | ⟨-, hr⟩
  · rw [hr]
  · rw [hr] at h
    cases h

/-! ### Tables one after the other -/

/-- The registry after a table was offered to it. -/
def offer (registry : Registry) (fs : List HostFunction) : Registry :=
  (registry.register fs).2

/-- The registry after tables were offered to it, the first of them in front. -/
def offerAll (registry : Registry) (tables : List (List HostFunction)) : Registry :=
  tables.foldl offer registry

/-- A new registry after tables were offered to it. -/
def afterAll (tables : List (List HostFunction)) : Registry :=
  offerAll .empty tables

/-- The tables that are accepted when tables are offered to a registry. -/
def accepted (registry : Registry) : List (List HostFunction) → List (List HostFunction)
  | [] => []
  | fs :: tables =>
    match registry.register fs with
    | (.ok (), registry) => fs :: accepted registry tables
    | (.error _, registry) => accepted registry tables

theorem entries_offerAll (registry : Registry) (tables : List (List HostFunction)) :
    (registry.offerAll tables).entries =
      registry.entries ++ bindings (accepted registry tables).flatten := by
  induction tables generalizing registry with
  | nil => exact (List.append_nil _).symm
  | cons fs tables ih =>
    refine (ih (registry.offer fs)).trans ?_
    have hok : (registry.register fs).1 = .ok () →
        (registry.register fs).2.entries = registry.entries ++ bindings fs := entries_of_register
    have herror (e) : (registry.register fs).1 = .error e → (registry.register fs).2 = registry :=
      register_of_error
    rw [offer, accepted]
    generalize registry.register fs = r at hok herror ⊢
    obtain ⟨e | ⟨⟩, registry'⟩ := r
    · obtain rfl : registry' = registry := herror e rfl
      rfl
    · rw [hok rfl, List.flatten_cons, List.append_assoc]
      simp only [bindings, List.map_append]

/-- What the registry holds. -/
theorem entries_afterAll (tables : List (List HostFunction)) :
    (afterAll tables).entries = bindings (accepted .empty tables).flatten :=
  (entries_offerAll .empty tables).trans (List.nil_append _)

theorem name_of_accepted (hfs : fs ∈ accepted registry tables) (hf : f ∈ fs) :
    f.name ≠ "" ∧ ∀ i : Intrinsic, i.name ≠ f.name := by
  induction tables generalizing registry with
  | nil => exact absurd hfs List.not_mem_nil
  | cons table tables ih =>
    rw [accepted] at hfs
    split at hfs
    · next registry' hr =>
      rcases List.mem_cons.1 hfs with rfl | hfs
      · rcases register_cases registry fs with ⟨_, _, _, _, -, -, he⟩ | ⟨hno, -⟩
        · cases he.symm.trans hr
        · exact ⟨(hno.names.1 f hf).1, (hno.names.1 f hf).2.1⟩
      · exact ih hfs
    · exact ih hfs

theorem afterAll_append (tables later : List (List HostFunction)) :
    afterAll (tables ++ later) = (afterAll tables).offerAll later :=
  List.foldl_append

theorem get?_afterAll {name : String} : (afterAll tables).get? name = some f ↔
    ∃ fs ∈ accepted .empty tables, f ∈ fs ∧ f.name = name := by
  rw [Table.get?_eq_some_iff, entries_afterAll, mem_bindings, List.mem_flatten]
  constructor
  · rintro ⟨⟨fs, hfs, hf⟩, hname⟩
    exact ⟨fs, hfs, hf, hname⟩
  · rintro ⟨fs, hfs, hf, hname⟩
    exact ⟨⟨fs, hfs, hf⟩, hname⟩

/-- What is known of a registry that tables were offered to. -/
structure TakesWhole (tables : List (List HostFunction)) : Prop where
  /-- A table is refused if and only if something is wrong with one of its functions. -/
  refuses : ∀ fs, (∃ e, ((afterAll tables).register fs).1 = .error e) ↔
    ∃ before f behind fault, fs = before ++ f :: behind ∧
      Objection (afterAll tables).names before f fault
  /-- The fault says what is wrong with one of them. -/
  blames : ∀ {fs e}, ((afterAll tables).register fs).1 = .error e →
    ∃ before f behind fault, fs = before ++ f :: behind ∧ e = .registration fault ∧
      Objection (afterAll tables).names before f fault
  /-- A table that is refused leaves the registry as it was. -/
  unchanged : ∀ {fs e}, ((afterAll tables).register fs).1 = .error e →
    afterAll (tables ++ [fs]) = afterAll tables
  /-- One that is accepted adds its functions and nothing else. -/
  adds : ∀ {fs}, ((afterAll tables).register fs).1 = .ok () →
    ∀ name f, (afterAll (tables ++ [fs])).get? name = some f ↔
      (afterAll tables).get? name = some f ∨ f ∈ fs ∧ f.name = name
  /-- No name is empty, and none is an intrinsic's. -/
  named : ∀ name ∈ (afterAll tables).names, name ≠ "" ∧ ∀ i : Intrinsic, i.name ≠ name
  /-- The functions are those of the tables that were accepted. -/
  holds : ∀ name f, (afterAll tables).get? name = some f ↔
    ∃ fs ∈ accepted .empty tables, f ∈ fs ∧ f.name = name
  /-- A name stays with the function that it was given. -/
  keeps : ∀ later {name f}, (afterAll tables).get? name = some f →
    (afterAll (tables ++ later)).get? name = some f
  size : (afterAll tables).size = ((accepted .empty tables).map List.length).sum

theorem takesWhole (tables : List (List HostFunction)) : TakesWhole tables where
  refuses fs := refused_iff
  blames {fs e} h := by
    rcases register_cases (afterAll tables) fs with
      ⟨before, f, behind, fault, hfs, ho, hr⟩ | ⟨-, hr⟩
    · rw [hr] at h
      cases h
      exact ⟨before, f, behind, fault, hfs, rfl, ho⟩
    · rw [hr] at h
      cases h
  unchanged {fs e} h := by
    rw [afterAll_append]
    exact register_of_error h
  adds {fs} h name f := by
    have hentries : (afterAll (tables ++ [fs])).entries =
        (afterAll tables).entries ++ bindings fs := by
      rw [afterAll_append]
      exact entries_of_register h
    rw [Table.get?_eq_some_iff, Table.get?_eq_some_iff, hentries, List.mem_append, mem_bindings]
  named name hname := by
    rw [Table.names, entries_afterAll, bindings, List.map_map] at hname
    obtain ⟨f, hf, rfl⟩ := List.mem_map.1 hname
    obtain ⟨fs, hfs, hf⟩ := List.mem_flatten.1 hf
    exact name_of_accepted hfs hf
  holds name f := get?_afterAll
  -- Later tables are put behind, so the first entry of a name stays the first.
  keeps later {name f} h := by
    rw [Table.get?_eq_some_iff] at h ⊢
    rw [afterAll_append, entries_offerAll]
    exact List.mem_append_left _ h
  size := by
    rw [Table.size, entries_afterAll, bindings, List.length_map, List.length_flatten]

end Registry

/-- Whatever a host does with a session, its registry has been offered tables, and nothing else. -/
theorem Session.Reached.host_eq {program : Program} {limits : Limits} {s : Session}
    (h : Reached program limits s) : ∃ tables, s.host = Registry.afterAll tables := by
  induction h with
  | new => exact ⟨[], rfl⟩
  | @act s s' a fuel given _ hr ih =>
    obtain ⟨tables, ih⟩ := ih
    cases a with
    | run =>
      obtain ⟨s₁, hs, he⟩ := Option.map_eq_some_iff.1 hr
      cases he
      rcases run_cases hs with ⟨v, state, -, rfl⟩ | ⟨f, state, -, rfl⟩ <;> exact ⟨tables, ih⟩
    | call name args =>
      obtain ⟨⟨r, s₁⟩, hs, he⟩ := Option.map_eq_some_iff.1 hr
      cases he
      rcases call_cases hs with ⟨v, state, -, -, rfl⟩ | ⟨f, state, -, -, rfl⟩ <;>
        exact ⟨tables, ih⟩
    | heap | reset | setSink =>
      cases hr
      exact ⟨tables, ih⟩
    | register fs =>
      cases hr
      refine ⟨tables ++ [fs], ?_⟩
      rw [Registry.afterAll_append, ← ih]
      rfl

namespace Registry

/-- Tables are registered as a whole or not at all, and what is registered has a name of its own.
    This holds of the registry of every session. -/
theorem registers_whole_tables (tables : List (List HostFunction)) :
    TakesWhole tables ∧
      ∀ program limits s, Session.Reached program limits s →
        ∃ tables, s.host = afterAll tables ∧ TakesWhole tables := by
  refine ⟨takesWhole tables, fun program limits s h => ?_⟩
  obtain ⟨tables, hs⟩ := h.host_eq
  exact ⟨tables, hs, takesWhole tables⟩

/-- A function that does nothing. -/
def idle (name : String) : HostFunction :=
  ⟨name, [], .done⟩

/-- Tables with a function of an intrinsic's name, one name twice, a name that is taken and an empty
    one. -/
def offers : List (List HostFunction) :=
  [[idle "f", idle "g"], [idle "h", idle "print"], [idle "k", idle "k"], [idle "h", idle "f"],
    [idle ""], [idle "h"]]

/-- The first of them and the last one are accepted. -/
theorem registers_offers :
    (accepted .empty offers).map (·.map (·.name)) = [["f", "g"], ["h"]] ∧
      (afterAll offers).size = 3 ∧
      Session.Reached ⟨[]⟩ .default (.new ⟨[]⟩ .default) ∧
      ∃ tables, (Session.new ⟨[]⟩ .default).host = afterAll tables ∧ TakesWhole tables := by
  have haccepted : (accepted .empty offers).map (·.map (·.name)) = [["f", "g"], ["h"]] := by
    decide +kernel
  obtain ⟨hoffers, hsessions⟩ := registers_whole_tables offers
  refine ⟨haccepted, ?_, .new _, hsessions _ _ _ (.new .plain)⟩
  have hlengths := congrArg (List.map List.length) haccepted
  rw [List.map_map] at hlengths
  rw [hoffers.size]
  refine (congrArg List.sum ?_).trans (congrArg List.sum hlengths)
  simp

end Registry

end PoolScript
