import SchemaCodec.Proofs.Action
import SchemaCodec.Proofs.Cache
import SchemaCodec.Proofs.Lists
import SchemaCodec.Proofs.TypeName.Arguments
import SchemaCodec.Registry.Resolution

/-! # What names denote

What a name resolves to depends on what is declared, and not on what was resolved before: whatever
is noted under a name is a type that the declared types and the generic definitions alone give it.
-/

namespace SchemaCodec.Registry

open SchemaCodec.Action

def Through (T : String → Descriptor → Prop) (name : String) (d : Descriptor) : Prop :=
  ∃ base, T (TypeName.splitArrays name).1 base ∧ d = base.arrays (TypeName.splitArrays name).2

/-- The type stands for a generic's member with arguments in the places of the parameters, where the
given types stand for the names that arise. -/
def Binds (T : String → Descriptor → Prop) (args : List Descriptor) :
    Descriptor → Descriptor → Prop
  | .primitive p, d => d = .primitive p
  | .parameter i, d => args[i]? = some d
  | .sequence container element, d =>
    if TypeName.hasParameters element.name then
      ∃ bound, Binds T args element bound ∧ d = .sequence container bound
    else d = .sequence container element
  | record, d =>
    if TypeName.hasParameters record.name then
      T (TypeName.substitute record.name (args.map Descriptor.name)) d
    else d = record

/-- The type is the record of a generic definition at the given arguments. -/
def Instantiates (T : String → Descriptor → Prop) (g : Generic) (args : List Descriptor)
    (d : Descriptor) : Prop :=
  args.length = g.arity ∧ ∃ members,
    List.Forall₂ (fun member bound => member.1 = bound.1 ∧ Binds T args member.2 bound.2)
      g.members members ∧
    d = .built (TypeName.generic g.base (args.map Descriptor.name)) (TypeName.short g.base)
      .instantiated members

/-- The type stands for a name without marks: it is declared under the name, or the primitive that
is spelled so, or an instance of the generic definition that the name applies. -/
inductive Stands (r : Registry) : String → Descriptor → Prop

  | declared {base : String} {d : Descriptor} : r.declared.get? base = some d → Stands r base d

  | primitive {base : String} {p : Primitive} : Primitive.ofSpelling? base = some p →
      Stands r base (.primitive p)

  | applied {base : String} {g : Generic} {names : List String} {args : List Descriptor}
      {d : Descriptor} {T : String → Descriptor → Prop} :
      (∀ base d, T base d → Stands r base d) → r.application? base = some (g, names) →
      List.Forall₂ (Through T) names args → Instantiates (Through T) g args d → Stands r base d

/-- The type is one that the declared types and the generic definitions give to the name. -/
def Denotes (r : Registry) : String → Descriptor → Prop := Through (Stands r)

variable {r r' : Registry} {T T' : String → Descriptor → Prop} {name base : String}
  {d d' : Descriptor} {args : List Descriptor} {g : Generic}

theorem Through.mono (h : Through T name d) (sub : ∀ base d, T base d → T' base d) :
    Through T' name d := by
  obtain ⟨base, stands, same⟩ := h
  exact ⟨base, sub _ _ stands, same⟩

theorem binds_record {record : Descriptor} (h : record.isRecord = true) :
    Binds T args record d ↔
      if TypeName.hasParameters record.name then
        T (TypeName.substitute record.name (args.map Descriptor.name)) d
      else d = record := by
  cases record with
  | declared id types => simp only [Binds]
  | built name short origin members => simp only [Binds]
  | _ => cases h

theorem Binds.mono (sub : ∀ name d, T name d → T' name d) {member : Descriptor}
    (h : Binds T args member d) : Binds T' args member d := by
  have record : ∀ {member d}, member.isRecord = true → Binds T args member d →
      Binds T' args member d := by
    intro member d isRecord h
    rw [binds_record isRecord] at h ⊢
    split at h
    · next opened =>
      rw [if_pos opened]
      exact sub _ _ h
    · next closed =>
      rwa [if_neg closed]
  induction member generalizing d with
  | primitive p =>
    rw [Binds] at h ⊢
    exact h
  | parameter i =>
    rw [Binds] at h ⊢
    exact h
  | sequence container element ih =>
    rw [Binds] at h ⊢
    split at h
    · next opened =>
      rw [if_pos opened]
      obtain ⟨bound, inner, rfl⟩ := h
      exact ⟨bound, ih inner, rfl⟩
    · next closed =>
      rwa [if_neg closed]
  | declared id types => exact record rfl h
  | built name short origin members => exact record rfl h

theorem Instantiates.mono (h : Instantiates T g args d) (sub : ∀ name d, T name d → T' name d) :
    Instantiates T' g args d := by
  obtain ⟨arity, members, all, rfl⟩ := h
  exact ⟨arity, members, all.imp fun _ _ bound => ⟨bound.1, bound.2.mono sub⟩, rfl⟩

theorem through_base (split : TypeName.splitArrays base = (base, 0)) :
    Through T base d ↔ T base d := by
  rw [Through, split]
  constructor
  · rintro ⟨d, h, rfl⟩
    exact h
  · intro h
    exact ⟨d, h, rfl⟩

/-! ## More declarations -/

structure Within (r r' : Registry) : Prop where
  declared : ∀ name d, r.declared.get? name = some d → r'.declared.get? name = some d
  generics : ∀ base g, r.generics.get? base = some g → r'.generics.get? base = some g

theorem within_refl (r : Registry) : r.Within r := ⟨fun _ _ h => h, fun _ _ h => h⟩

theorem Within.trans {r'' : Registry} (h : r.Within r') (h' : r'.Within r'') : r.Within r'' :=
  ⟨fun name d known => h'.declared name d (h.declared name d known),
    fun base g known => h'.generics base g (h.generics base g known)⟩

theorem application?_eq_some {names : List String} :
    r.application? name = some (g, names) ↔
      ∃ base, TypeName.parseGeneric name = some (base, names) ∧ r.generics.get? base = some g := by
  unfold application?
  split
  · next none => simp [none]
  · next base args parsed =>
    simp only [parsed, Option.map_eq_some_iff, Option.some.injEq, Prod.mk.injEq]
    constructor
    · rintro ⟨g', known, rfl, rfl⟩
      exact ⟨base, ⟨rfl, rfl⟩, known⟩
    · rintro ⟨base', ⟨rfl, rfl⟩, known⟩
      exact ⟨g, known, rfl, rfl⟩

theorem Stands.mono (more : r.Within r') (h : r.Stands base d) : r'.Stands base d := by
  induction h with
  | declared known => exact .declared (more.declared _ _ known)
  | primitive spelled => exact .primitive spelled
  | applied _ application args instance_ ih =>
    obtain ⟨base, parsed, known⟩ := application?_eq_some.mp application
    have known' := more.generics base _ known
    exact .applied ih (application?_eq_some.mpr ⟨base, parsed, known'⟩) args instance_

theorem Denotes.mono (more : r.Within r') (h : r.Denotes name d) : r'.Denotes name d :=
  Through.mono h fun _ _ => Stands.mono more

/-! ## One type for a name -/

/-- The declared names are record names without arguments, and every generic definition is held
under its base. -/
structure Tame (r : Registry) : Prop where
  declared : ∀ name d, r.declared.get? name = some d →
    d.name = name ∧ Primitive.ofSpelling? name = none ∧ '<' ∉ name.toList
  generics : ∀ base g, r.generics.get? base = some g → g.base = base

theorem opened_of_application {names : List String}
    (h : r.application? base = some (g, names)) : '<' ∈ base.toList := by
  obtain ⟨_, parsed, -⟩ := application?_eq_some.mp h
  exact TypeName.mem_of_parseGeneric parsed

theorem Binds.unique (agree : ∀ name d d', T name d → T' name d' → d' = d)
    {member : Descriptor} (h : Binds T args member d) (h' : Binds T' args member d') :
    d' = d := by
  have record : ∀ {member d d'}, member.isRecord = true → Binds T args member d →
      Binds T' args member d' → d' = d := by
    intro member d d' isRecord h h'
    rw [binds_record isRecord] at h h'
    split at h
    · next opened =>
      rw [if_pos opened] at h'
      exact agree _ _ _ h h'
    · next closed =>
      rw [if_neg closed] at h'
      exact h'.trans h.symm
  induction member generalizing d d' with
  | primitive p =>
    rw [Binds] at h h'
    exact h'.trans h.symm
  | parameter i =>
    rw [Binds] at h h'
    exact Option.some.inj (h'.symm.trans h)
  | sequence container element ih =>
    rw [Binds] at h h'
    split at h
    · next opened =>
      rw [if_pos opened] at h'
      obtain ⟨bound, inner, rfl⟩ := h
      obtain ⟨bound', inner', rfl⟩ := h'
      rw [ih inner inner']
    · next closed =>
      rw [if_neg closed] at h'
      exact h'.trans h.symm
  | declared id types => exact record rfl h h'
  | built name short origin members => exact record rfl h h'

theorem Instantiates.unique (agree : ∀ name d d', T name d → T' name d' → d' = d)
    (h : Instantiates T g args d) (h' : Instantiates T' g args d') : d' = d := by
  obtain ⟨-, members, all, rfl⟩ := h
  obtain ⟨-, members', all', rfl⟩ := h'
  rw [forall₂_unique (fun member _ bound bound' first second => ?_) all all']
  exact Prod.ext (second.1.symm.trans first.1) (first.2.unique agree second.2)

theorem Through.unique (agree : ∀ base d d', T base d → T' base d' → d' = d)
    (h : Through T name d) (h' : Through T' name d') : d' = d := by
  obtain ⟨base, stands, rfl⟩ := h
  obtain ⟨base', stands', rfl⟩ := h'
  rw [agree _ _ _ stands stands']

theorem Stands.unique (tame : r.Tame) (h : r.Stands base d) (h' : r.Stands base d') : d' = d := by
  induction h generalizing d' with
  | declared known =>
    obtain ⟨-, foreign, closed⟩ := tame.declared _ _ known
    cases h' with
    | declared known' => exact Option.some.inj (known'.symm.trans known)
    | primitive spelled => cases foreign.symm.trans spelled
    | applied _ application _ _ => exact absurd (opened_of_application application) closed
  | primitive spelled =>
    cases h' with
    | declared known' => cases (tame.declared _ _ known').2.1.symm.trans spelled
    | primitive spelled' => rw [Option.some.inj (spelled'.symm.trans spelled)]
    | applied _ application _ _ =>
      exact absurd (opened_of_application application) (TypeName.not_mem_of_spelling spelled)
  | @applied base g names args d T sub application all instance_ ih =>
    have opened := opened_of_application application
    cases h' with
    | declared known' => exact absurd opened (tame.declared _ _ known').2.2
    | primitive spelled => exact absurd opened (TypeName.not_mem_of_spelling spelled)
    | @applied _ g' names' args' _ T' sub' application' all' instance' =>
      obtain ⟨rfl, rfl⟩ := Prod.mk.inj (Option.some.inj (application'.symm.trans application))
      have agree : ∀ name d d', Through T name d → Through T' name d' → d' = d :=
        fun name d d' first second =>
          first.unique (fun base d d' h h' => ih base d h (sub' base d' h')) second
      obtain rfl := forall₂_unique (fun name _ => agree name) all all'
      exact instance_.unique agree instance'

theorem Denotes.unique (tame : r.Tame) (h : r.Denotes name d) (h' : r.Denotes name d') : d' = d :=
  Through.unique (fun _ _ _ => Stands.unique tame) h h'

/-! ## Resolving -/

/-- The registry has the tables of another one, and notes under a name only what the name denotes
there. -/
structure Recalls (r s : Registry) : Prop where
  declared : s.declared = r.declared
  generics : s.generics = r.generics
  resolved : ∀ name d, s.resolved.get? name = some d → r.Denotes name d

variable {I : Registry → Prop} {R : Error → Prop} {resolve : String → Action Registry Descriptor}

theorem keeps_bindMember (h : ∀ name, (resolve name).Keeps I (fun _ => True) (T name))
    (args : List Descriptor) (member : Descriptor) :
    (bindMember resolve args member).Keeps I (fun _ => True) (Binds T args member) := by
  have record : ∀ member : Descriptor, member.isRecord = true →
      (if TypeName.hasParameters member.name then
        resolve (TypeName.substitute member.name (args.map Descriptor.name))
      else Pure.pure member).Keeps I (fun _ => True) (Binds T args member) := by
    intro member isRecord
    split
    · next opened =>
      refine (h _).mono (fun d stands => ?_) fun _ _ => trivial
      rwa [binds_record isRecord, if_pos opened]
    · next closed =>
      refine keeps_pure ?_
      rw [binds_record isRecord, if_neg closed]
  induction member with
  | primitive p =>
    rw [bindMember]
    exact keeps_pure (by rw [Binds])
  | parameter i =>
    rw [bindMember]
    split
    · next d found => exact keeps_pure (by rwa [Binds])
    · exact keeps_fail trivial
  | sequence container element ih =>
    rw [bindMember]
    split
    · next opened =>
      refine Keeps.map (ih.mono (fun bound binds => ?_) fun _ _ => trivial)
      rw [Binds, if_pos opened]
      exact ⟨bound, binds, rfl⟩
    · next closed => exact keeps_pure (by rw [Binds, if_neg closed])
  | declared id types =>
    rw [bindMember]
    · exact record _ rfl
    all_goals simp
  | built name short origin members =>
    rw [bindMember]
    · exact record _ rfl
    all_goals simp

theorem keeps_instantiate (h : ∀ name, (resolve name).Keeps I (fun _ => True) (T name))
    (g : Generic) (args : List Descriptor) :
    (instantiate resolve g args).Keeps I (fun _ => True) (Instantiates T g args) := by
  unfold instantiate
  split
  · exact keeps_fail trivial
  · next arity =>
    refine (Keeps.traverse (Q := fun member bound =>
      member.1 = bound.1 ∧ Binds T args member.2 bound.2) fun member _ => ?_).bind
      fun members all => (keeps_report _).bind fun _ _ => keeps_pure ?_
    · obtain ⟨name, member⟩ := member
      exact (keeps_bindMember h args member).bind fun bound binds => keeps_pure ⟨rfl, binds⟩
    · exact ⟨of_not_not arity, members, all, rfl⟩

theorem keeps_resolveBase
    (h : ∀ name, (resolve name).Keeps (Recalls r) (fun _ => True) (r.Denotes name))
    (uncut : TypeName.splitArrays base = (base, 0)) :
    (resolveBase resolve base).Keeps (Recalls r) (fun _ => True)
      fun found => ∀ d, found = some d → r.Stands base d := by
  refine keeps_get.bind fun s recalls => ?_
  split
  · next d known =>
    refine keeps_pure ?_
    rintro _ ⟨⟩
    rcases Option.or_eq_some_iff.mp known with noted | ⟨-, declared⟩
    · exact (through_base uncut).mp (recalls.resolved _ _ noted)
    · rw [recalls.declared] at declared
      exact .declared declared
  · split
    · next g names application =>
      have applies : r.application? base = some (g, names) := by
        rw [← application]
        unfold application?
        rw [recalls.generics]
      refine (Keeps.traverse (Q := r.Denotes) fun name _ => h name).bind fun args all =>
        (keeps_instantiate h g args).bind fun d instance_ => keeps_pure ?_
      rintro _ ⟨⟩
      exact .applied (fun _ _ stands => stands) applies all instance_
    · refine keeps_pure fun d found => ?_
      obtain ⟨p, spelled, rfl⟩ := Option.map_eq_some_iff.mp found
      exact .primitive spelled

theorem keeps_resolveWithin (depth : Nat) (pending : List String) (name : String) :
    (resolveWithin depth pending name).Keeps (Recalls r) (fun _ => True) (r.Denotes name) := by
  induction depth generalizing pending name with
  | zero =>
    unfold resolveWithin
    refine keeps_get.bind fun s recalls => ?_
    split
    · next d noted => exact keeps_pure (recalls.resolved _ _ noted)
    · split
      · exact keeps_fail trivial
      · exact keeps_fail trivial
  | succ depth ih =>
    unfold resolveWithin
    refine keeps_get.bind fun s recalls => ?_
    split
    · next d noted => exact keeps_pure (recalls.resolved _ _ noted)
    · split
      · exact keeps_fail trivial
      · refine (keeps_resolveBase (fun name => ih _ name)
          (TypeName.splitArrays_fst name)).bind fun found stands => ?_
        split
        · exact keeps_fail trivial
        · next d =>
          have denotes : r.Denotes name (d.arrays (TypeName.splitArrays name).2) :=
            ⟨d, stands d rfl, rfl⟩
          refine keeps_get.bind fun s recalls => ?_
          refine (keeps_modify fun s recalls => ?_).bind fun _ _ => keeps_pure ?_
          · refine ⟨recalls.declared, recalls.generics, fun other d' found => ?_⟩
            rcases Cache.get?_add_eq_some found with held | ⟨-, rfl, rfl⟩
            · exact recalls.resolved _ _ held
            · exact denotes
          · exact Cache.getOr_eq _ (fun d' held => recalls.resolved _ _ held) denotes

/-- A name resolves to what it denotes. -/
theorem keeps_resolve (name : String) :
    (Registry.resolve name).Keeps (Recalls r) (fun _ => True) (r.Denotes name) :=
  keeps_resolveWithin depthLimit [] name

end SchemaCodec.Registry
