import SchemaCodec.Proofs.Registry.Growth
import SchemaCodec.Proofs.Schema.Discovery

/-! # Registries made from schemas

A registry that was told nothing but schemas files every record that it made under the record's own
name. So whatever a type leads to is found in the registry by name, and none of it is declared when
the type is extracted.
-/

namespace SchemaCodec.Registry

open SchemaCodec.Action

variable {r r' : Registry} {d : Descriptor} {name : String} {C : Catalog}

/-- The type is made of primitives and of records from schemas, each held under its own name. -/
inductive Filed (r : Registry) : Descriptor → Prop

  | primitive (p : Primitive) : Filed r (.primitive p)

  | sequence {container : Container} {element : Descriptor} : Filed r element →
      Filed r (.sequence container element)

  | record {name short : String} {members : List (String × Descriptor)} :
      r.resolved.get? name = some (.built name short .synthesized members) →
      (∀ m ∈ members, Filed r m.2) → Filed r (.built name short .synthesized members)

theorem Filed.grown (h : r.Filed d) (grown : r.resolved.Extends r'.resolved) : r'.Filed d := by
  induction h with
  | primitive p => exact .primitive p
  | sequence _ ih => exact .sequence ih
  | record held _ ih => exact .record (grown.get? held) ih

theorem Filed.arrays (h : r.Filed d) (levels : Nat) : r.Filed (d.arrays levels) := by
  induction levels with
  | zero => exact h
  | succ levels ih => exact .sequence ih

theorem hereditary_filed (C : Catalog) (r : Registry) : Discovery.Hereditary C r.Filed where
  innermost := by
    intro d h
    induction h with
    | primitive p => exact .primitive p
    | sequence _ ih => exact ih
    | record held members => exact .record held members
  member := by
    intro d h m mem
    cases h with
    | primitive p => cases mem
    | sequence => cases mem
    | record _ members => exact members m mem

theorem Filed.eq_built (h : r.Filed d) (isRecord : d.isRecord = true) :
    ∃ short members, d = .built d.name short .synthesized members ∧
      r.resolved.get? d.name = some d := by
  cases h with
  | primitive => cases isRecord
  | sequence => cases isRecord
  | record held _ => exact ⟨_, _, rfl, held⟩

theorem ends_declareAll_filed {records : List Descriptor} {Q : Unit → Registry → Prop}
    {R : Error → Registry → Prop} (filed : ∀ d ∈ records, d.isRecord = true ∧ r.Filed d) :
    (Engine.declareAll C records).Ends r Q R ↔ Q () r := by
  induction records with
  | nil => rfl
  | cons d ds ih =>
    obtain ⟨⟨isRecord, first⟩, others⟩ := List.forall_mem_cons.mp filed
    obtain ⟨short, members, same, -⟩ := first.eq_built isRecord
    have made : d.origin C = .synthesized := by rw [same]; rfl
    rw [Engine.declareAll, if_neg fun other => other made]
    exact ih others

/-- The registry knows nothing but what schemas told it. -/
structure Schematic (r : Registry) : Prop where
  declared : r.declared = .empty
  generics : r.generics = .empty
  filed : ∀ name d, r.resolved.get? name = some d → r.Filed d

theorem schematic_empty : Schematic .empty := ⟨rfl, rfl, fun _ _ no => by cases no⟩

theorem Schematic.note (h : r.Schematic) (filed : r.Filed d) : (r.note name d).Schematic := by
  have grown : r.resolved.Extends (r.note name d).resolved := Cache.extends_add _ _ _
  refine ⟨h.declared, h.generics, fun other d' found => ?_⟩
  rcases Cache.get?_add_eq_some found with old | ⟨-, -, rfl⟩
  · exact (h.filed other d' old).grown grown
  · exact filed.grown grown

theorem Schematic.base? (h : r.Schematic) {base : String} (found : r.base? base = some d) :
    r.Filed d := by
  unfold Registry.base? at found
  rw [h.declared] at found
  cases known : r.resolved.get? base with
  | some other =>
    rw [known] at found
    obtain rfl := Option.some.inj found
    exact h.filed base other known
  | none =>
    rw [known] at found
    obtain ⟨p, -, rfl⟩ := Option.map_eq_some_iff.mp found
    exact .primitive p

/-- A name resolves to a filed type, which is noted if it was not known. -/
theorem ends_resolve_filed (h : r.Schematic) (name : String) :
    (Registry.resolve name).Ends r (fun d r' => r.Filed d ∧ (r' = r ∨ r' = r.note name d))
      fun _ r' => r' = r := by
  cases found : r.resolved.get? name with
  | some d =>
    rw [ends_resolve_known found]
    exact ⟨h.filed name d found, .inl rfl⟩
  | none =>
    cases split : TypeName.splitArrays name with
    | mk base levels =>
      rw [ends_resolve_new found split fun _ => plain_of_generics h.generics base]
      cases known : r.base? base with
      | none => rfl
      | some d => exact ⟨(h.base? known).arrays levels, .inr rfl⟩

theorem schematic_resolve (h : r.Schematic) (name : String) :
    (Registry.resolve name).Ends r
      (fun d r' => r'.Schematic ∧ r'.Filed d ∧ r.resolved.Extends r'.resolved)
      fun _ r' => r' = r := by
  refine (ends_resolve_filed h name).mono ?_ fun _ _ same => same
  rintro d r' ⟨filed, rfl | rfl⟩
  · exact ⟨h, filed, Cache.extends_refl _⟩
  · have grown : r.resolved.Extends (r.note name d).resolved := Cache.extends_add _ _ _
    exact ⟨h.note filed, filed.grown grown, grown⟩

theorem schematic_addSynthesized (h : r.Schematic) (typeName : String)
    {members : List (String × Descriptor)} (filed : ∀ m ∈ members, r.Filed m.2) :
    (addSynthesized typeName members).Ends r
      (fun d r' => r'.Schematic ∧ r'.Filed d ∧ r.resolved.Extends r'.resolved)
      fun _ _ => True := by
  cases found : r.resolved.get? typeName with
  | some d =>
    unfold addSynthesized
    rw [ends_bind, ends_get, found]
    exact ⟨h, h.filed typeName d found, Cache.extends_refl _⟩
  | none =>
    rw [ends_addSynthesized found]
    have grown := Cache.extends_add r.resolved typeName
      (.built typeName (TypeName.short typeName) .synthesized members)
    have held := Cache.get?_add_self r.resolved typeName
      (.built typeName (TypeName.short typeName) .synthesized members)
    rw [Cache.getOr, found] at held
    refine ⟨⟨h.declared, h.generics, fun other d known => ?_⟩, ?_, grown⟩
    · rcases Cache.get?_add_eq_some known with old | ⟨-, -, rfl⟩
      · exact (h.filed other d old).grown grown
      · exact .record held fun m mem => (filed m mem).grown grown
    · exact .record held fun m mem => (filed m mem).grown grown

theorem schematic_resolveChildren {children : List Node}
    (each : ∀ c ∈ children, ∀ r : Registry, r.Schematic → (resolveNode c).Ends r
      (fun d r' => r'.Schematic ∧ r'.Filed d ∧ r.resolved.Extends r'.resolved) fun _ _ => True)
    (h : r.Schematic) (owner : String) :
    (resolveChildren owner children).Ends r
      (fun members r' => r'.Schematic ∧ (∀ m ∈ members, r'.Filed m.2) ∧
        r.resolved.Extends r'.resolved) fun _ _ => True := by
  induction children generalizing r with
  | nil =>
    rw [resolveChildren]
    exact ⟨h, List.forall_mem_nil _, Cache.extends_refl _⟩
  | cons child others ih =>
    rw [resolveChildren]
    split
    · trivial
    · rw [ends_bind]
      refine (each child List.mem_cons_self r h).mono ?_ fun _ _ _ => trivial
      rintro d r' ⟨h', filed, grown⟩
      rw [ends_bind]
      refine (ih (fun c hc => each c (List.mem_cons_of_mem _ hc)) h').mono ?_ fun _ _ _ => trivial
      rintro members r'' ⟨h'', all, grown'⟩
      exact ⟨h'', List.forall_mem_cons.mpr ⟨filed.grown grown', all⟩, grown.trans grown'⟩

theorem schematic_resolveNode (node : Node) (h : r.Schematic) :
    (resolveNode node).Ends r
      (fun d r' => r'.Schematic ∧ r'.Filed d ∧ r.resolved.Extends r'.resolved)
      fun _ _ => True := by
  induction node generalizing r with
  | mk name typeName children ih =>
    rw [resolveNode.eq_def, ends_recover]
    refine (schematic_resolve h typeName).mono (fun _ _ done => done) ?_
    rintro e _ rfl
    split
    · trivial
    · next handled =>
      split at handled
      · cases children with
        | nil => cases handled
        | cons child others =>
          obtain rfl := Option.some.inj handled
          rw [ends_bind]
          refine (schematic_resolveChildren (fun c hc r => ih c hc) h typeName).mono ?_
            fun _ _ _ => trivial
          rintro members r' ⟨h', filed, grown⟩
          refine (schematic_addSynthesized h' typeName filed).mono ?_ fun _ _ _ => trivial
          exact fun d r'' done => ⟨done.1, done.2.1, grown.trans done.2.2⟩
      · cases handled

end SchemaCodec.Registry
