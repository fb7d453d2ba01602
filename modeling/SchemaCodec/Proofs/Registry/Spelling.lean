import SchemaCodec.Proofs.Outcome
import SchemaCodec.Proofs.Registry.Calls
import SchemaCodec.Proofs.TypeName.Spelling

/-! # Resolving different spellings

All spellings of a type resolve to one and the same type, which has the canonical name. It does not
matter when they are resolved, what was resolved before, and what is declared in between.
-/

namespace SchemaCodec.Registry

open SchemaCodec.Action SchemaCodec.TypeName

variable {r s : Registry} {t : Tree} {name : String} {d d' : Descriptor}

/-! ## What trees mean -/

/-- The type is the one that is written as a tree. -/
inductive Means (r : Registry) : Tree → Descriptor → Prop

  | primitive (p : Primitive) : Means r (.primitive p) (.primitive p)

  | record {name : String} {d : Descriptor} : r.declared.get? name = some d →
      Means r (.record name) d

  | generic {base : String} {g : Generic} {args : List Tree} {types : List Descriptor}
      {d : Descriptor} : r.generics.get? base = some g → args.length = types.length →
      (∀ t d, (t, d) ∈ args.zip types → Means r t d) → Instantiates r.Denotes g types d →
      Means r (.generic base args) d

  | array {t : Tree} {d : Descriptor} : Means r t d → Means r (.array t) (.sequence .array d)

theorem means_generic {base : String} {args : List Tree} (h : r.Means (.generic base args) d) :
    ∃ g types, r.generics.get? base = some g ∧ args.length = types.length ∧
      (∀ t d, (t, d) ∈ args.zip types → r.Means t d) ∧ Instantiates r.Denotes g types d := by
  cases h with
  | generic known length each instance_ => exact ⟨_, _, known, length, each, instance_⟩

theorem Means.unique (h : r.Means t d) (tame : r.Tame) (h' : r.Means t d') : d' = d := by
  induction h generalizing d' with
  | primitive p =>
    cases h'
    rfl
  | record known =>
    cases h' with
    | record known' => exact Option.some.inj (known'.symm.trans known)
  | @generic base g args types d known length _ instance_ ih =>
    obtain ⟨g', types', known', length', each', instance'⟩ := means_generic h'
    have sameGeneric : g' = g := Option.some.inj (known'.symm.trans known)
    have agree : ∀ t ∈ args, ∀ d d', (t, d) ∈ args.zip types → (t, d') ∈ args.zip types' →
        d' = d := fun t _ d d' mem mem' => ih t d mem (each' t d' mem')
    have sameTypes : types' = types :=
      forall₂_unique agree (forall₂_zip length) (forall₂_zip length')
    rw [sameGeneric, sameTypes] at instance'
    have one : ∀ name d d', r.Denotes name d → r.Denotes name d' → d' = d := fun _ _ _ =>
      Denotes.unique tame
    exact Instantiates.unique one instance_ instance'
  | array _ ih =>
    cases h' with
    | array inner => rw [ih inner]

theorem Means.name_eq (h : r.Means t d) (tame : r.Tame) : d.name = t.print := by
  induction h with
  | primitive p =>
    rw [Tree.print]
    rfl
  | record known =>
    rw [Tree.print]
    exact (tame.declared _ _ known).1
  | generic known length _ instance_ ih =>
    obtain ⟨-, members, -, rfl⟩ := instance_
    have names := map_eq_map ((forall₂_zip length).imp fun t d mem => (ih t d mem).symm)
    rw [Tree.print, Tree.printAll_eq_map, names, ← tame.generics _ _ known]
    rfl
  | array _ ih =>
    rw [Tree.print, ← ih]
    rfl

theorem stands_of_unopened (h : r.Stands name d) (closed : '<' ∉ name.toList) :
    r.declared.get? name = some d ∨
      ∃ p, Primitive.ofSpelling? name = some p ∧ d = .primitive p := by
  cases h with
  | declared known => exact .inl known
  | primitive spelled => exact .inr ⟨_, spelled, rfl⟩
  | applied _ application _ _ => exact absurd (opened_of_application application) closed

theorem denotes_atomic (atomic : Atomic name) : r.Denotes name d ↔ r.Stands name d :=
  through_base (splitArrays_arrays atomic 0)

theorem denotes_trim (s : String) :
    r.Denotes (String.ofList (trim s.toList)) d ↔ r.Denotes s d := by
  rw [Denotes, Through, Through, splitArrays_trim, String.ofList_toList]

theorem parts_of_application {base : String} {args names : List String} {g : Generic}
    (simple : Simple base) (each : ∀ a ∈ args, Argument a.toList)
    (h : r.application? (applied base args) = some (g, names)) :
    r.generics.get? base = some g ∧
      names = args.map fun a => String.ofList (trim a.toList) := by
  obtain ⟨base', parsed, known⟩ := application?_eq_some.mp h
  by_cases nonempty : args = []
  · subst nonempty
    rw [parseGeneric_nil simple] at parsed
    cases parsed
  · rw [parseGeneric_applied simple nonempty each] at parsed
    obtain ⟨rfl, rfl⟩ := Prod.mk.inj (Option.some.inj parsed)
    exact ⟨known, rfl⟩

/-- What a spelling denotes is what the tree means. -/
theorem means_of_spells {spelling : String} (spells : Spells t spelling) (regular : t.Regular)
    (tame : r.Tame) (h : r.Denotes spelling d) : r.Means t d := by
  induction spells generalizing d with
  | @primitive p spelling spelled =>
    have stands := (denotes_atomic (atomic_of_spelling spelled)).mp h
    rcases stands_of_unopened stands (not_mem_of_spelling spelled) with known | ⟨q, same, rfl⟩
    · cases (tame.declared _ _ known).2.1.symm.trans spelled
    · rw [Option.some.inj (same.symm.trans spelled)]
      exact .primitive p
  | record name =>
    cases regular with
    | record wellFormed closed _ _ =>
      have stands := (denotes_atomic wellFormed.toAtomic).mp h
      rcases stands_of_unopened stands closed with known | ⟨p, spelled, -⟩
      · exact .record known
      · cases wellFormed.foreign.symm.trans spelled
  | @generic args spellings base length spells ih =>
    cases regular with
    | generic simple inner =>
      have argument : ∀ s ∈ spellings, Argument s.toList := by
        intro s hs
        obtain ⟨t, ht, pair⟩ := partner_left (forall₂_zip length) hs
        exact (spells t s pair).argument (inner t ht)
      have opened : '<' ∈ (applied base spellings).toList := by
        rw [toList_applied]
        simp
      have uncut := splitArrays_applied simple fun s hs => (argument s hs).toBracketed
      cases (through_base uncut).mp h with
      | declared known => exact absurd opened (tame.declared _ _ known).2.2
      | primitive spelled => exact absurd opened (not_mem_of_spelling spelled)
      | @applied _ g names types _ T sub application all instance_ =>
        obtain ⟨known, rfl⟩ := parts_of_application simple argument application
        have deeper : ∀ name d, Through T name d → r.Denotes name d := fun _ _ through =>
          through.mono sub
        rw [List.forall₂_map_left_iff] at all
        have inner' := (forall₂_comp (forall₂_zip length) all).imp
          fun t d ⟨s, pair, through⟩ => ih t s pair (inner t (List.of_mem_zip pair).1)
            ((denotes_trim s).mp (deeper _ _ through))
        obtain ⟨length', each⟩ := List.forall₂_iff_zip.mp inner'
        exact .generic known length' (fun _ _ => each) (instance_.mono deeper)
  | @array t spelling spells ih =>
    cases regular with
    | array inner =>
      obtain ⟨base, stands, rfl⟩ := h
      have outside := (spells.argument inner).level 0
      rw [splitArrays_array outside] at stands ⊢
      exact .array (ih inner ⟨base, stands, rfl⟩)
  | @padded t spelling front back hf hb spells ih =>
    refine ih regular ?_
    obtain ⟨base, stands, same⟩ := h
    rw [splitArrays_padded hf hb, String.ofList_toList] at stands same
    exact ⟨base, stands, same⟩

/-! ## Two spellings -/

variable {calls : List Call}

/-- Two spellings of a type that are resolved between any calls yield one type, and it has the
canonical name. -/
theorem spelling_independent {before before' : List Call} {spelling spelling' : String}
    (filling : Filling calls) (regular : t.Regular) (spells : Spells t spelling)
    (spells' : Spells t spelling') (h : before <+: calls) (h' : before' <+: calls)
    (resolved : (Registry.resolve spelling (afterCalls before)).result = .ok d)
    (resolved' : (Registry.resolve spelling' (afterCalls before')).result = .ok d') :
    d.name = t.print ∧ d' = d := by
  obtain ⟨filled, -⟩ := filled_afterCalls filling (List.prefix_refl calls)
  have means := means_of_spells spells regular filled.tame (denotes_of_resolved filling h resolved)
  have means' := means_of_spells spells' regular filled.tame
    (denotes_of_resolved filling h' resolved')
  exact ⟨means.name_eq filled.tame, means.unique filled.tame means'⟩

/-- A pair of a number and a sequence of points, spelled in two ways. -/
theorem spelling_independent_pair :
    let point : Descriptor :=
      .built "app::Point" "Point" .declared [("X", .primitive (.scalar .int32))]
    let pair : Generic := ⟨"app::Pair", 2, [("First", .parameter 0), ("Second", .parameter 1)]⟩
    let spelling := "app::Pair<Int,app::Point []>"
    let spelling' := " app::Pair<System.Int32, app::Point[]>"
    let before : List Call := [.declareGeneric pair, .declare point]
    let calls : List Call := before ++ [.resolve spelling, .declare (.built "Q" "Q" .declared [])]
    ∃ d, (Registry.resolve spelling (afterCalls before)).result = .ok d ∧
      (Registry.resolve spelling' (afterCalls calls)).result = .ok d ∧
      d.name = "app::Pair<Int32, app::Point[]>" := by
  intro point pair spelling spelling' before calls
  obtain ⟨wellFormed, closed⟩ := wellFormed_of_unbracketed (s := "app::Point") rfl rfl
  have filling : Filling calls :=
    .declareGeneric (Filling.declare (d := point) (.resolve (.declare filling_nil
      (wellFormed_of_unbracketed rfl rfl)) spelling) ⟨wellFormed, closed⟩) (by simp)
  have inner : Spells (.record "app::Point") "app::Point" := .record "app::Point"
  have number : ∀ s, Primitive.ofSpelling? s = some (.scalar .int32) →
      Spells (.primitive (.scalar .int32)) s := fun _ => .primitive
  let tree : Tree :=
    .generic "app::Pair" [.primitive (.scalar .int32), .array (.record "app::Point")]
  have regular : tree.Regular := by
    refine .generic ?_ ?_
    · obtain ⟨base, plain⟩ := wellFormed_of_unbracketed (s := "app::Pair") rfl rfl
      exact simple_of_wellFormed base plain (by decide)
    · intro t mem
      rcases List.mem_pair.mp mem with rfl | rfl
      · exact .primitive _
      · exact .array (.record wellFormed closed (by decide) (by decide))
  have blank : Blank [' '] := by
    intro c hc
    rw [List.mem_singleton.mp hc]
    rfl
  have none : Blank [] := fun _ no => by cases no
  have spells : Spells tree spelling :=
    spells_generic "app::Pair"
      (.cons (number "Int" rfl) (.cons (.array (.padded none blank inner)) .nil))
  have spells' : Spells tree spelling' :=
    .padded blank none (spells_generic "app::Pair"
      (.cons (number "System.Int32" rfl) (.cons (.padded blank none (.array inner)) .nil)))
  have found : ((Registry.resolve spelling (afterCalls before)).result.toOption.map
      Descriptor.name).isSome = true := by decide +kernel
  have found' : ((Registry.resolve spelling' (afterCalls calls)).result.toOption.map
      Descriptor.name).isSome = true := by decide +kernel
  rw [Option.isSome_map, Option.isSome_iff_exists] at found found'
  obtain ⟨d, resolved⟩ := found
  obtain ⟨d', resolved'⟩ := found'
  rw [toOption_eq_some] at resolved resolved'
  obtain ⟨named, rfl⟩ := spelling_independent filling regular spells spells'
    (List.prefix_append before _) (List.prefix_refl calls) resolved resolved'
  exact ⟨d', resolved, resolved', named⟩

/-- In a registry that calls have filled, a spelling of a tree resolves to a type that has not the
name of the tree. -/
def Misread (calls : List Call) (t : Tree) (spelling : String) : Prop :=
  Filling calls ∧ Spells t spelling ∧
    ∃ d, (Registry.resolve spelling (afterCalls calls)).result = .ok d ∧ d.name ≠ t.print

theorem misread_of_named {calls : List Call} {spelling name : String} (filling : Filling calls)
    (spells : Spells t spelling)
    (named : (Registry.resolve spelling (afterCalls calls)).result.toOption.map Descriptor.name =
      some name)
    (other : name ≠ t.print) : Misread calls t spelling := by
  obtain ⟨d, resolved, rfl⟩ := Option.map_eq_some_iff.mp named
  exact ⟨filling, spells, d, toOption_eq_some.mp resolved, other⟩

/-- Names are misread that have a comma at the end, that are empty, or that have a mark of a
sequence in front of their arguments. -/
theorem misread_names :
    let unit := fun name => Call.declare (.built name name .declared [])
    let single := fun base => Call.declareGeneric ⟨base, 1, []⟩
    Misread [unit "a,", unit "a", single "G"] (.generic "G" [.record "a,"]) "G<a,>" ∧
      Misread [unit "", unit "a", single "G"] (.generic "G" [.record "", .record "a"]) "G<,a>" ∧
      Misread [unit "a", single "a[]"] (.generic "a[]" [.record "a"]) "a[]<a>" := by
  intro unit single
  have one : ∀ base, Filling [unit "a", single base] := fun base =>
    .declare (.declareGeneric filling_nil (by simp)) (wellFormed_of_unbracketed rfl rfl)
  have two : ∀ {name}, WellFormed name ∧ '<' ∉ name.toList →
      Filling [unit name, unit "a", single "G"] := fun declared => .declare (one "G") declared
  refine ⟨misread_of_named (two (wellFormed_of_unbracketed rfl rfl))
      (spells_generic "G" (.cons (.record "a,") .nil)) (?_ : _ = some "G<a>") ?_,
    misread_of_named (two (wellFormed_of_unbracketed rfl rfl))
      (spells_generic "G" (.cons (.record "") (.cons (.record "a") .nil)))
      (?_ : _ = some "G<a>") ?_,
    misread_of_named (one "a[]") (spells_generic "a[]" (.cons (.record "a") .nil))
      (?_ : _ = some "a[]") ?_⟩
  all_goals decide +kernel

end SchemaCodec.Registry
