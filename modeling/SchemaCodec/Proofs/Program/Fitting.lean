import SchemaCodec.Proofs.Plan.Choice
import SchemaCodec.Proofs.Program.Conversion
import SchemaCodec.Proofs.Schema.Listing

/-! # Plans of described types

A plan that is chosen for a description of a type fits the type, whatever description it is, as far
as the plans of records do. It can be chosen when every record in the type has a plan.
-/

namespace SchemaCodec.Catalog

open MessageType

variable {K C : Catalog} {types : Set MessageType} {compiled : String → Option Plan}
  {d : Descriptor} {t : MessageType} {id : RecordId} {args : List MessageType} {node : Node}
  {typeName : String} {plan : Plan}

/-- Every plan under a name fits a type of the set that has the name. -/
def Linked (C : Catalog) (types : Set MessageType) (compiled : String → Option Plan) : Prop :=
  ∀ name plan, compiled name = some plan → ∃ t, C.Occurs types t ∧ t.name = name ∧ C.Fits plan t

theorem Linked.fits (linked : C.Linked types compiled) (consistent : C.Consistent types)
    (occurs : C.Occurs types t) (bound : Bound t) (found : compiled t.name = some plan) :
    C.Fits plan t := by
  obtain ⟨t', occurs', named, fits⟩ := linked _ _ found
  exact fits.of_alike consistent (consistent.alike fits.bound bound occurs' occurs named) occurs'
    occurs

theorem Linked.fits_chosen (linked : C.Linked types compiled) (consistent : C.Consistent types)
    (chosen : Plan.Chosen compiled d typeName plan) (depicts : Depicts K C types d t)
    (occurs : C.Occurs types t) : C.Fits plan t := by
  induction chosen generalizing t with
  | scalar =>
    cases depicts with
    | primitive => exact .scalar _
  | text =>
    cases depicts with
    | primitive => exact .text
  | record _ _ isRecord named found =>
    obtain ⟨id, args, rfl⟩ := depicts.exists_record isRecord
    rw [← named, depicts.name_eq] at found
    exact linked.fits consistent occurs (.record id args) found
  | bulk =>
    cases depicts with
    | sequence depicts =>
      cases depicts with
      | primitive => exact .bulk _ _
  | elements _ _ _ ih =>
    cases depicts with
    | sequence depicts => exact .elements (ih depicts occurs.element)

theorem Linked.fits_ofNode (linked : C.Linked types compiled) (consistent : C.Consistent types)
    (lists : C.Lists types id args node) (depicts : Depicts K C types d (.record id args))
    (h : Plan.ofNode compiled K node d = .ok plan) : C.Fits plan (.record id args) := by
  obtain ⟨members, fields, known, rfl, all⟩ := Plan.ofNode_iff.mp h
  obtain ⟨members', known', -, only⟩ := depicts.members consistent lists.occurs
  obtain rfl : members = members' := Option.some.inj (known.symm.trans known')
  have partner : ∀ field ∈ fields, ∃ t, (field.1, t) ∈ C.members id args ∧ C.Fits field.2 t := by
    intro field hfield
    obtain ⟨child, -, d', -, found, chosen⟩ := partner_left all hfield
    obtain ⟨t, mem, depicts'⟩ := only _ (mem_of_lookup found)
    exact ⟨t, mem, linked.fits_chosen consistent chosen depicts' (lists.occurs.member mem)⟩
  refine .record lists.unique ?_ ?_ ?_
  · intro m mem
    obtain ⟨field, hfield, -, named, -⟩ := partner_right all (lists.child m mem)
    exact ⟨field, hfield, (Option.some.inj named).symm⟩
  · intro field hfield
    obtain ⟨t, mem, -⟩ := partner field hfield
    exact ⟨t, mem⟩
  · intro field hfield t mem
    obtain ⟨t', mem', fits⟩ := partner field hfield
    have found := lookup_of_mem lists.unique mem
    rw [lookup_of_mem lists.unique mem'] at found
    obtain rfl := Option.some.inj found
    exact fits

/-! ## Existence -/

/-- The type has an encoding, as far as there are plans for records. -/
def Ready (compiled : String → Option Plan) : MessageType → Prop
  | .primitive p => p ≠ .decimal
  | .parameter _ => False
  | .sequence _ element => Ready compiled element
  | .record id args => ∃ plan, compiled (record id args).name = some plan

theorem Depicts.ready (depicts : Depicts K C types d t)
    (h : (∃ p, p ≠ .decimal ∧ d.innermost = .primitive p) ∨
      d.innermost.isRecord = true ∧ ∃ plan, compiled d.innermost.name = some plan) :
    Ready compiled t := by
  induction depicts with
  | primitive p =>
    rcases h with ⟨q, coded, same⟩ | ⟨no, -⟩
    · obtain ⟨⟩ := same
      exact coded
    · cases no
  | parameter i =>
    rcases h with ⟨p, -, no⟩ | ⟨no, -⟩
    · cases no
    · cases no
  | sequence _ ih => exact ih h
  | declared _ _ same =>
    rcases h with ⟨p, -, no⟩ | ⟨-, plan, found⟩
    · cases no
    · exact ⟨plan, (congrArg compiled same).symm.trans found⟩
  | built same _ _ _ _ _ =>
    rcases h with ⟨p, -, no⟩ | ⟨-, plan, found⟩
    · cases no
    · exact ⟨plan, (congrArg compiled same).symm.trans found⟩

theorem exists_chosen (consistent : C.Consistent types) (depicts : Depicts K C types d t)
    (occurs : C.Occurs types t) (ready : Ready compiled t) :
    ∃ plan, Plan.Chosen compiled d t.name plan := by
  have record : ∀ {d : Descriptor} {id args}, C.Occurs types (.record id args) →
      d.isRecord = true → d.name = (record id args).name → Ready compiled (.record id args) →
      ∃ plan, Plan.Chosen compiled d (record id args).name plan := by
    intro d id args occurs isRecord named ready
    obtain ⟨plan, found⟩ := ready
    have wellFormed := consistent.wellFormed id args occurs
    exact ⟨plan, .record (TypeName.element?_atomic wellFormed.toAtomic) wellFormed.foreign isRecord
      named found⟩
  induction depicts with
  | primitive p =>
    have plain := TypeName.element?_atomic (TypeName.atomic_name p)
    have spelled := TypeName.ofSpelling?_name p
    rcases p with k | _ | _
    · exact ⟨_, .scalar plain spelled⟩
    · exact ⟨_, .text plain spelled⟩
    · exact absurd rfl ready
  | parameter i => exact ready.elim
  | @sequence container storage d t _ ih =>
    obtain ⟨plan, chosen⟩ := ih occurs.element ready
    cases kind : Plan.bulkKind? container d t.name with
    | some k =>
      obtain ⟨rfl, rfl, spelled⟩ := Plan.bulkKind?_eq_some.mp kind
      exact ⟨_, .bulk (TypeName.element?_array _) spelled⟩
    | none => exact ⟨_, .elements (TypeName.element?_array _) kind chosen⟩
  | declared _ _ same => exact record occurs rfl same ready
  | built same _ _ _ _ _ => exact record occurs rfl same ready

theorem exists_lookup (consistent : C.Consistent types) (lists : C.Lists types id args node)
    (depicts : Depicts K C types d (.record id args)) {members : List (String × Descriptor)}
    (known : d.members? K = some members) {m : String × MessageType}
    (mem : m ∈ C.members id args) :
    ∃ d', members.lookup m.1 = some d' ∧ Depicts K C types d' m.2 := by
  obtain ⟨members', known', every, only⟩ := depicts.members consistent lists.occurs
  obtain rfl : members = members' := Option.some.inj (known.symm.trans known')
  obtain ⟨p, hp, same, -⟩ := every m mem
  obtain ⟨d', found⟩ : ∃ d', members.lookup m.1 = some d' := by
    apply Option.ne_none_iff_exists'.mp
    intro missing
    have apart := List.lookup_eq_none_iff.mp missing p hp
    exact bne_iff_ne.mp apart same.symm
  obtain ⟨t', mem', depicts'⟩ := only _ (mem_of_lookup found)
  have same := (lookup_of_mem lists.unique mem').symm.trans (lookup_of_mem lists.unique mem)
  obtain rfl := Option.some.inj same
  exact ⟨d', found, depicts'⟩

theorem exists_chosenChild (consistent : C.Consistent types) (lists : C.Lists types id args node)
    (depicts : Depicts K C types d (.record id args)) {members : List (String × Descriptor)}
    (known : d.members? K = some members) {m : String × MessageType}
    (mem : m ∈ C.members id args) (ready : Ready compiled m.2) :
    ∃ field, Plan.ChosenChild compiled members (.member m.1 m.2.name) field := by
  obtain ⟨d', found, depicts'⟩ := exists_lookup consistent lists depicts known mem
  obtain ⟨plan, chosen⟩ := exists_chosen consistent depicts' (lists.occurs.member mem) ready
  exact ⟨(m.1, plan), d', rfl, found, chosen⟩

theorem exists_ofNode (consistent : C.Consistent types) (lists : C.Lists types id args node)
    (depicts : Depicts K C types d (.record id args))
    (ready : ∀ m ∈ C.members id args, Ready compiled m.2) :
    ∃ plan, Plan.ofNode compiled K node d = .ok plan := by
  obtain ⟨members, known, -⟩ := depicts.members consistent lists.occurs
  have chosen : ∀ child ∈ node.children, ∃ field, Plan.ChosenChild compiled members child field := by
    intro child hchild
    obtain ⟨m, mem, rfl⟩ := lists.only child hchild
    exact exists_chosenChild consistent lists depicts known mem (ready m mem)
  obtain ⟨fields, all⟩ := exists_partners chosen
  exact ⟨_, Plan.ofNode_iff.mpr ⟨members, fields, known, rfl, all⟩⟩

/-! ## Missing plans -/

theorem choose_of_missing (consistent : C.Consistent types) (depicts : Depicts K C types d t)
    (occurs : C.Occurs types t) (isRecord : t.describe.innermost.isRecord = true)
    (missing : compiled t.describe.innermost.name = none) (owner : String) :
    Plan.choose compiled owner d t.name =
      .error (.orderingViolation owner t.describe.innermost.name) := by
  have record : ∀ {d : Descriptor} {id args}, C.Occurs types (.record id args) →
      (∀ container element, d ≠ .sequence container element) → d.isRecord = true →
      d.name = (record id args).name → compiled (record id args).name = none →
      Plan.choose compiled owner d (record id args).name =
        .error (.orderingViolation owner (record id args).name) := by
    intro d id args occurs leaf isRecord named missing
    have wellFormed := consistent.wellFormed id args occurs
    have base : Plan.choose compiled owner d (MessageType.record id args).name =
        Plan.chooseBase compiled owner d (MessageType.record id args).name := by
      cases d with
      | sequence container element => exact absurd rfl (leaf container element)
      | _ =>
        unfold Plan.choose
        rw [TypeName.element?_atomic wellFormed.toAtomic]
    rw [base, Plan.chooseBase, wellFormed.foreign]
    exact (if_pos ⟨isRecord, named⟩).trans (by rw [missing])
  induction depicts with
  | primitive p => cases isRecord
  | parameter i => cases isRecord
  | @sequence container storage d t depicts ih =>
    have failed := ih occurs.element isRecord missing
    cases kind : Plan.bulkKind? container d t.name with
    | some k =>
      obtain ⟨rfl, rfl, -⟩ := Plan.bulkKind?_eq_some.mp kind
      cases depicts with
      | primitive => cases isRecord
    | none =>
      rw [MessageType.name, Plan.choose, TypeName.element?_array]
      dsimp only
      rw [kind]
      dsimp only
      rw [failed]
      rfl
  | declared _ _ same => exact record occurs (fun _ _ no => by cases no) rfl same missing
  | built same _ _ _ _ _ => exact record occurs (fun _ _ no => by cases no) rfl same missing

/-- The first child that holds a record without a plan is the one that a node is not compiled for. -/
theorem ofNode_of_missing (consistent : C.Consistent types) (lists : C.Lists types id args node)
    (depicts : Depicts K C types d (.record id args)) {front back : List Node}
    {m : String × MessageType} (mem : m ∈ C.members id args)
    (split : node.children = front ++ .member m.1 m.2.name :: back)
    (ready : ∀ m' ∈ C.members id args, .member m'.1 m'.2.name ∈ front → Ready compiled m'.2)
    (isRecord : m.2.describe.innermost.isRecord = true)
    (missing : compiled m.2.describe.innermost.name = none) :
    Plan.ofNode compiled K node d =
      .error (.orderingViolation node.typeName m.2.describe.innermost.name) := by
  obtain ⟨members, known, -⟩ := depicts.members consistent lists.occurs
  obtain ⟨d', found, depicts'⟩ := exists_lookup consistent lists depicts known mem
  have failed := choose_of_missing consistent depicts' (lists.occurs.member mem) isRecord missing
    node.typeName
  have chosen : ∀ c ∈ front, ∃ field, Plan.ChosenChild compiled members c field := by
    intro c hc
    obtain ⟨m', mem', rfl⟩ := lists.only c (by simp [split, hc])
    exact exists_chosenChild consistent lists depicts known mem' (ready m' mem' hc)
  rw [Plan.ofNode, known, split]
  dsimp only
  rw [Plan.chooseFields_of_first chosen rfl found failed]
  rfl

end SchemaCodec.Catalog
