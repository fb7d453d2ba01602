import SchemaCodec.Proofs.Plan.Choice
import SchemaCodec.Proofs.Schema.Rearrangement

/-! # Plans of type graphs

What plan a type has, told from the graph of the types that a root leads to: records are looked up by
name, and their members come in the order of their names. Graphs that differ in the order of
declaration only have the same plans, and the plans that are chosen for extracted nodes are those of
the graph.
-/

namespace SchemaCodec

open Descriptor

namespace Descriptor

/-- The plan is that of the type, where the root leads to the records in it. -/
inductive CodedBy (C : Catalog) (root : Descriptor) : Descriptor → Plan → Prop

  | scalar (k : Scalar) : CodedBy C root (.primitive (.scalar k)) (.scalar k)

  | text : CodedBy C root (.primitive .string) .text

  | bulk (k : Scalar) : CodedBy C root (.sequence .array (.primitive (.scalar k))) (.bulk k)

  | elements {container : Container} {element : Descriptor} {plan : Plan} :
      (∀ k, ¬ (container = .array ∧ element = .primitive (.scalar k))) →
      CodedBy C root element plan → CodedBy C root (.sequence container element) (.elements plan)

  | record {d r : Descriptor} {fields : List (String × Plan)} : d.isRecord = true →
      Reaches C root r → r.isRecord = true → r.name = d.name → Fields.Sorted fields →
      (fields.map Prod.fst).Perm ((r.members C).map Prod.fst) →
      (∀ p ∈ fields, ∀ x, (p.1, x) ∈ r.members C → CodedBy C root x p.2) →
      CodedBy C root d (.record d.name fields)

variable {C C' : Catalog} {root root' d d' r r' : Descriptor} {p p' plan : Plan}
  {fields fields' : List (String × Plan)}

theorem CodedBy.of_name_eq (h : CodedBy C root r plan) (isRecord : r.isRecord = true)
    (isRecord' : d.isRecord = true) (same : r.name = d.name) : CodedBy C root d plan := by
  cases h with
  | record _ reached isRecord₀ same₀ sorted names inner =>
    rw [same]
    exact .record isRecord' reached isRecord₀ (same₀.trans same) sorted names inner
  | _ => cases isRecord

theorem fields_eq_of_rearranges (h : Rearranges C C' r r')
    (sorted : Fields.Sorted fields) (sorted' : Fields.Sorted fields')
    (names : (fields.map Prod.fst).Perm ((r.members C).map Prod.fst))
    (names' : (fields'.map Prod.fst).Perm ((r'.members C').map Prod.fst))
    (inner : ∀ f ∈ fields, ∀ f' ∈ fields', f.1 = f'.1 → ∀ x x', (f.1, x) ∈ r.members C →
      (f.1, x') ∈ r'.members C' → Twin x x' → f.2 = f'.2) : fields = fields' := by
  have ascending : ∀ {fields : List (String × Plan)}, Fields.Sorted fields →
      (fields.map Prod.fst).Pairwise (· < ·) := fun sorted => List.pairwise_map.mpr sorted
  have labels : fields.map Prod.fst = fields'.map Prod.fst :=
    ((names.trans h.names).trans names'.symm).eq_of_pairwise
      (fun _ _ _ _ less greater => absurd (String.lt_trans less greater) (String.lt_irrefl _))
      (ascending sorted) (ascending sorted')
  refine List.forall₂_eq_eq_eq ▸ (forall₂_of_map_eq labels).imp ?_
  rintro ⟨label, q⟩ ⟨_, q'⟩ ⟨rfl, mem, mem'⟩
  have declared := names.subset (List.mem_map_of_mem mem)
  obtain ⟨⟨_, x⟩, member, rfl⟩ := List.mem_map.mp declared
  obtain ⟨⟨_, x'⟩, member', rfl, twin⟩ := h.exists_member member
  exact congrArg (Prod.mk _) (inner _ mem _ mem' rfl x x' member member' twin)

/-- A type has one plan, in whatever order the members of records are declared. -/
theorem CodedBy.unique (h : Rearranged C C' root root') (coded : CodedBy C root d p)
    (coded' : CodedBy C' root' d' p') (twin : Twin d d') : p = p' := by
  induction coded generalizing d' p' with
  | scalar k =>
    cases twin with
    | primitive =>
      cases coded' with
      | scalar => rfl
      | record no => cases no
    | record no => cases no
  | text =>
    cases twin with
    | primitive =>
      cases coded' with
      | text => rfl
      | record no => cases no
    | record no => cases no
  | bulk k =>
    cases twin with
    | sequence twin =>
      cases twin with
      | primitive =>
        cases coded' with
        | bulk => rfl
        | elements plain _ => exact absurd ⟨rfl, rfl⟩ (plain k)
        | record no => cases no
      | record no => cases no
    | record no => cases no
  | elements plain _ ih =>
    cases twin with
    | sequence twin =>
      cases coded' with
      | bulk k =>
        cases twin with
        | primitive => exact absurd ⟨rfl, rfl⟩ (plain k)
        | record _ no _ => cases no
      | elements _ coded' => exact congrArg Plan.elements (ih coded' twin)
      | record no => cases no
    | record no => cases no
  | record isRecord reached isRecord₀ same sorted names _ ih =>
    cases twin with
    | record _ isRecord' named =>
      cases coded' with
      | record _ reached' isRecord₀' same' sorted' names' inner' =>
        have rearranges := h.records _ _ reached reached' isRecord₀ isRecord₀'
          (same.trans (named.trans same'.symm))
        rw [named, fields_eq_of_rearranges rearranges sorted sorted' names names' ?_]
        intro f mem f' mem' label x x' member member' twin
        exact ih f mem x member (inner' f' mem' x' (label ▸ member')) twin
      | _ => cases isRecord'
    | _ => cases isRecord

theorem members?_of_isRecord (C : Catalog) (isRecord : r.isRecord = true) :
    r.members? C = some (r.members C) := by
  cases r with
  | declared => rfl
  | built => rfl
  | _ => cases isRecord

end Descriptor

namespace Plan

variable {C : Catalog} {root d r r' : Descriptor} {compiled : String → Option Plan}

/-- What is compiled under a name is the plan of the record of the name. -/
def Keyed (C : Catalog) (root : Descriptor) (compiled : String → Option Plan) : Prop :=
  ∀ name plan, compiled name = some plan →
    ∃ r, Reaches C root r ∧ r.isRecord = true ∧ r.name = name ∧ CodedBy C root r plan

/-- The type is made of a primitive with an encoding, or of a record with a well-formed name that is
compiled. -/
def Served (compiled : String → Option Plan) (d : Descriptor) : Prop :=
  (∃ p, p ≠ .decimal ∧ d.innermost = .primitive p) ∨
    d.innermost.isRecord = true ∧ TypeName.WellFormed d.innermost.name ∧
      ∃ plan, compiled d.innermost.name = some plan

theorem exists_chosen_record (keyed : Keyed C root compiled) (isRecord : d.isRecord = true)
    (wellFormed : TypeName.WellFormed d.name) (ready : ∃ plan, compiled d.name = some plan) :
    ∃ plan, Chosen compiled d d.name plan ∧ CodedBy C root d plan := by
  obtain ⟨plan, held⟩ := ready
  obtain ⟨r, -, isRecord', same, coded⟩ := keyed _ _ held
  exact ⟨plan, .record (TypeName.element?_atomic wellFormed.toAtomic) wellFormed.foreign isRecord
    rfl held, coded.of_name_eq isRecord' isRecord same⟩

theorem exists_chosen (keyed : Keyed C root compiled) (served : Served compiled d) :
    ∃ plan, Chosen compiled d d.name plan ∧ CodedBy C root d plan := by
  induction d with
  | primitive p =>
    have plain := TypeName.element?_atomic (TypeName.atomic_name p)
    have spelled := TypeName.ofSpelling?_name p
    cases p with
    | scalar k => exact ⟨_, .scalar plain spelled, .scalar k⟩
    | string => exact ⟨_, .text plain spelled, .text⟩
    | decimal =>
      rcases served with ⟨p, coded, inner⟩ | ⟨no, -⟩
      · cases inner
        exact absurd rfl coded
      · cases no
  | parameter i =>
    rcases served with ⟨p, -, no⟩ | ⟨no, -⟩
    · cases no
    · cases no
  | sequence container element ih =>
    obtain ⟨plan, chosen, coded⟩ := ih served
    have marked := TypeName.element?_array element.name
    cases kind : bulkKind? container element element.name with
    | some k =>
      obtain ⟨rfl, rfl, spelled⟩ := bulkKind?_eq_some.mp kind
      exact ⟨_, .bulk marked spelled, .bulk k⟩
    | none =>
      refine ⟨_, .elements marked kind chosen, .elements ?_ coded⟩
      rintro k ⟨rfl, rfl⟩
      cases kind.symm.trans (bulkKind?_eq_some.mpr ⟨rfl, rfl, TypeName.ofSpelling?_name _⟩)
  | declared | built =>
    rcases served with ⟨p, -, no⟩ | ⟨isRecord, wellFormed, ready⟩
    · cases no
    · exact exists_chosen_record keyed isRecord wellFormed ready

theorem Served.alike (h : Served compiled d) (alike : Alike d r) : Served compiled r := by
  induction alike with
  | primitive p => exact h
  | parameter i => exact h
  | sequence _ ih => exact ih h
  | record isRecord isRecord' same =>
    rw [Served, innermost_of_isRecord isRecord] at h
    rw [Served, innermost_of_isRecord isRecord', ← same]
    rcases h with ⟨p, -, leaf⟩ | ⟨-, ready⟩
    · rw [leaf] at isRecord
      cases isRecord
    · exact .inr ⟨isRecord', ready⟩

theorem Served.arrays {base : Descriptor} (h : Served compiled d) (twin : Twin base d.innermost)
    (levels : Nat) : Served compiled (base.arrays levels) := by
  have inner : Served compiled d.innermost := by
    rw [Served, d.innermost_innermost]
    exact h
  rw [Served, innermost_arrays]
  exact inner.alike twin.symm.alike

theorem codedBy_of_chosen {fields : List (String × Plan)} (same : SameRecord C r' r)
    (reached : Reaches C root r) (isRecord : r.isRecord = true)
    (unique : ((r'.members C).map Prod.fst).Nodup)
    (all : List.Forall₂ (fun c f => Node.name c = some f.1 ∧ ∀ x, (f.1, x) ∈ r.members C →
      CodedBy C root x f.2) (Extraction.children C r') fields) :
    CodedBy C root r (.record r.name fields) := by
  have labels : (Extraction.children C r').map Node.name = (fields.map Prod.fst).map some := by
    rw [List.map_map]
    exact map_eq_map (all.imp fun _ _ both => both.1)
  obtain ⟨names, listed, ascending⟩ := Extraction.ordered_entry C r'
  obtain rfl : names = fields.map Prod.fst :=
    List.map_injective_iff.mpr (Option.some_injective String) (listed.symm.trans labels)
  have perm := (Extraction.perm_children unique).map Node.name
  have own : ((r'.members C).map fun m => Node.member m.1 m.2.name).map Node.name =
      ((r'.members C).map Prod.fst).map some := by
    rw [List.map_map, List.map_map]
    rfl
  rw [labels, own] at perm
  have declared := (List.map_perm_map_iff (Option.some_injective String)).mp perm
  refine .record isRecord reached isRecord rfl (List.pairwise_map.mp ascending)
    (declared.trans same.names) fun f mem x member => ?_
  obtain ⟨c, -, -, coded⟩ := partner_left all mem
  exact coded x member

/-- The node of a found record has a plan for any record with the same members, if everything in it
is served, and it is the plan of the graph. -/
theorem exists_ofNode (keyed : Keyed C root compiled) (same : SameRecord C r' r)
    (named : r'.name = r.name) (reached : Reaches C root r) (isRecord : r.isRecord = true)
    (unique : ((r'.members C).map Prod.fst).Nodup)
    (served : ∀ m ∈ r'.members C, Served compiled m.2) :
    ∃ plan, ofNode compiled C (Extraction.entry C r').node r = .ok plan ∧
      CodedBy C root r plan := by
  have unique' := same.names.nodup_iff.mp unique
  have each : ∀ c ∈ Extraction.children C r', ∃ f : String × Plan,
      ChosenChild compiled (r.members C) c f ∧
        (Node.name c = some f.1 ∧ ∀ x, (f.1, x) ∈ r.members C → CodedBy C root x f.2) := by
    intro c hc
    obtain ⟨m, mem, rfl⟩ := Extraction.mem_children hc
    obtain ⟨⟨_, x⟩, mem', rfl, alike⟩ := same.member m mem
    have found := lookup_of_mem unique' mem'
    obtain ⟨plan, chosen, coded⟩ := exists_chosen keyed ((served m mem).alike alike)
    refine ⟨(m.1, plan), ⟨x, rfl, found, alike.name_eq ▸ chosen⟩, rfl, fun y hy => ?_⟩
    obtain rfl := Option.some.inj (found.symm.trans (lookup_of_mem unique' hy))
    exact coded
  obtain ⟨fields, all⟩ := exists_partners each
  refine ⟨.record r.name fields, ofNode_iff.mpr ⟨r.members C, fields, ?_, ?_, ?_⟩, ?_⟩
  · exact members?_of_isRecord C isRecord
  · exact congrArg (Plan.record · fields) named.symm
  · exact all.imp fun _ _ both => both.1
  · exact codedBy_of_chosen same reached isRecord unique (all.imp fun _ _ both => both.2)

end Plan

end SchemaCodec
