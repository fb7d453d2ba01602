import SchemaCodec.Proofs.Engine.Compilation
import SchemaCodec.Proofs.Engine.Operation
import SchemaCodec.Proofs.Registry.Writes

/-! # What an engine writes

Every call, whether it fails or not, changes an engine by single writes: in its registry, or where a
coding or an extracted schema is noted or something is counted. So what every write keeps, every run
keeps.
-/

namespace SchemaCodec.Engine

open Relation SchemaCodec.Action

/-- A coding that the engine can make: that of a node from the type found for it, or that of a root
from its type. The records that it embeds are held by then. -/
inductive Makes (e : Engine) : Codec → Prop

  | record {node : Node} {d : Descriptor} {plan : Plan} :
      Plan.ofNode e.plan? e.catalog node d = .ok plan → Makes e ⟨node.typeName, plan, e.limits⟩

  | root {typeName : String} {d : Descriptor} {plan : Plan} :
      Plan.choose e.plan? typeName d typeName = .ok plan → Makes e ⟨typeName, plan, e.limits⟩

/-- A single change of an engine. -/
inductive Write (e : Engine) : Engine → Prop

  | registry {r : Registry} : e.registry.Write r → Write e { e with registry := r }

  | counters (f : Counters → Counters) : Write e { e with counters := f e.counters }

  | compiled {c : Codec} : e.Makes c → Write e (e.note c)

  | schema {t : MessageType} {ext : Extraction} :
      Extraction.ofDescriptor e.catalog t.describe = .ok ext →
      Write e { e with schemas := e.schemas.add t ext.schema }

abbrev Writes : Engine → Engine → Prop := ReflTransGen Write

variable {I : Engine → Prop} {R : Error → Prop} {e₀ e : Engine} {d : Descriptor} {t : MessageType}
  {schema : Schema}

theorem keeps_resolving {α : Type} {P : α → Prop} {step : Action Registry α}
    (h : ∀ r₀, step.Keeps (Registry.Writes r₀) R P)
    (kept : ∀ e r, I e → Registry.Writes e.registry r → I { e with registry := r }) :
    (resolving step).Keeps I R P := by
  intro e he
  rw [ends_resolving]
  exact (h e.registry e.registry .refl).mono (fun _ r hx => ⟨kept e r he hx.1, hx.2⟩)
    fun _ r hx => ⟨kept e r he hx.1, hx.2⟩

theorem writes_resolving {α : Type} {P : α → Prop} {step : Action Registry α}
    (h : ∀ r₀, step.Keeps (Registry.Writes r₀) R P) : (resolving step).Keeps (Writes e₀) R P := by
  apply keeps_resolving h
  intro e r writes more
  refine writes.trans (more.lift (fun r => { e with registry := r }) ?_)
  exact fun r _ write => .registry (e := { e with registry := r }) write

theorem writes_count (f : Counters → Counters) :
    (count f).Keeps (Writes e₀) R fun _ => True :=
  keeps_modify fun _ writes => writes.tail (.counters f)

theorem writes_registerGeneric (template : Descriptor) :
    (registerGeneric template).Keeps (Writes e₀) (fun _ => True) fun _ => True := by
  refine keeps_get.bind fun e _ => ?_
  refine (keeps_ofExcept (P := fun _ => True) (fun _ _ => trivial) fun _ _ => trivial).bind
    fun g _ => ?_
  exact (writes_resolving fun _ => (Registry.writes_declareGeneric g).weaken).bind fun _ _ =>
    keeps_pure trivial

theorem writes_resolve (name : String) :
    (resolve name).Keeps (Writes e₀) (fun _ => True) fun _ => True :=
  writes_resolving fun _ => (Registry.writes_resolve name).weaken

theorem writes_resolveNode (node : Node) :
    (resolveNode node).Keeps (Writes e₀) (fun _ => True) fun _ => True :=
  writes_resolving fun _ => (Registry.writes_resolveNode node).weaken

theorem writes_resolveSchema (schema : Schema) :
    (resolveSchema schema).Keeps (Writes e₀) (fun _ => True) fun _ => True :=
  (Keeps.traverse (Q := fun _ _ => True) fun node _ => writes_resolveNode node).bind fun _ _ =>
    writes_resolve schema.typeName

theorem Write.catalog_eq {e' : Engine} (h : e.Write e') : e'.catalog = e.catalog := by
  cases h <;> rfl

theorem Writes.catalog_eq (h : Writes e₀ e) : e.catalog = e₀.catalog := by
  induction h with
  | refl => rfl
  | tail _ write ih => exact write.catalog_eq.trans ih

/-! ## Extraction -/

theorem writes_extract (d : Descriptor) :
    (extract d).Keeps (Writes e₀) (fun _ => True) fun schema =>
      ∃ ext, Extraction.ofDescriptor e₀.catalog d = .ok ext ∧ schema = ext.schema := by
  apply keeps_extract
  · intro e writes ext extracted
    rw [Writes.catalog_eq writes] at extracted
    exact ⟨⟨ext, extracted, rfl⟩,
      writes_resolving fun _ => (Registry.writes_declareAll e.catalog _).weaken⟩
  · exact fun _ _ _ _ => trivial

theorem writes_schemaOf (t : MessageType) :
    (schemaOf t).Keeps (Writes e₀) (fun _ => True) fun _ => True := by
  apply keeps_schemaOf writes_count (fun _ _ _ _ => trivial) (writes_extract t.describe)
    fun _ _ => trivial
  rintro e _ writes ⟨ext, extracted, rfl⟩
  rw [← Writes.catalog_eq writes] at extracted
  exact writes.tail (.schema extracted)

/-! ## Compilation -/

theorem ends_keep_held {c : Codec} {Q : Codec → Engine → Prop} {R : Error → Engine → Prop} :
    (keep c).Ends e Q R ↔ Q (e.compiled.getOr c.typeName c) (e.note c) := Iff.rfl

theorem writes_compileNodes (nodes : List Node) :
    (compileNodes nodes).Keeps (Writes e₀) (fun _ => True) fun _ => True := by
  induction nodes with
  | nil => exact keeps_pure trivial
  | cons node nodes ih =>
    rw [compileNodes]
    apply keeps_get.bind fun e _ => ?_
    split
    · exact ih
    · -- What is noted was made from what the engine holds at this moment.
      refine (writes_resolveNode node).bind fun d _ e writes => ?_
      rw [ends_bind, ends_get, ends_bind, ends_ofExcept]
      refine ⟨fun plan chosen => ?_, fun _ _ => ⟨writes, trivial⟩⟩
      rw [ends_bind, ends_report, ends_bind, ends_keep_held]
      exact ih _ (writes.tail (.compiled (.record chosen)))

theorem writes_compileRoot (typeName : String) (d : Descriptor) :
    (compileRoot typeName d).Keeps (Writes e₀) (fun _ => True) fun _ => True := by
  intro e writes
  unfold compileRoot
  rw [ends_bind, ends_get, ends_bind, ends_ofExcept]
  refine ⟨fun plan chosen => ?_, fun _ _ => ⟨writes, trivial⟩⟩
  rw [ends_bind, ends_report, ends_keep_held]
  exact ⟨writes.tail (.compiled (.root chosen)), trivial⟩

theorem writes_compileRound {again : Schema → Descriptor → Action Engine Codec}
    (h : ∀ full d, (again full d).Keeps (Writes e₀) (fun _ => True) fun _ => True)
    (schema : Schema) (root : Option Descriptor) :
    (compileRound again schema root).Keeps (Writes e₀) (fun _ => True) fun _ => True := by
  apply (writes_compileNodes _).bind fun _ _ => keeps_get.bind fun e _ => ?_
  split
  · exact keeps_pure trivial
  · apply Keeps.bind (P := fun _ => True)
    · cases root with
      | some d => exact keeps_pure trivial
      | none => exact writes_resolve _
    · intro d _
      split
      · apply (writes_extract d).bind fun full _ => ?_
        split
        · exact keeps_fail trivial
        · exact h full d
      · exact writes_compileRoot _ d

theorem writes_compile (schema : Schema) (root : Option Descriptor) :
    (compile schema root).Keeps (Writes e₀) (fun _ => True) fun _ => True := by
  apply writes_compileRound fun full d => ?_
  exact writes_compileRound (fun _ _ => keeps_fail trivial) full (some d)

theorem writes_codecOf (t : MessageType) :
    (codecOf t).Keeps (Writes e₀) (fun _ => True) fun _ => True := by
  apply (writes_schemaOf t).bind fun schema _ => keeps_get.bind fun e _ => ?_
  split
  · exact (writes_count _).bind fun _ _ => keeps_pure trivial
  · exact (writes_count _).bind fun _ _ => (keeps_report _).bind fun _ _ =>
      writes_compile schema (some t.describe)

theorem writes_codecOfSchema (schema : Schema) :
    (codecOfSchema schema).Keeps (Writes e₀) (fun _ => True) fun _ => True := by
  apply keeps_get.bind fun e _ => ?_
  split
  · exact (writes_count _).bind fun _ _ => keeps_pure trivial
  · exact (writes_count _).bind fun _ _ => writes_compile schema none

theorem writes_codecOfName (typeName : String) :
    (codecOfName typeName).Keeps (Writes e₀) (fun _ => True) fun _ => True := by
  apply keeps_get.bind fun e _ => ?_
  split
  · exact keeps_pure trivial
  · exact (writes_resolve typeName).bind fun d _ => (writes_extract d).bind fun schema _ =>
      writes_compile schema (some d)

/-! ## Runs -/

/-- Every call changes the engine by single writes. -/
theorem writes_apply (op : Operation) (e : Engine) : Writes e (op.apply e) := by
  have preserves : op.Preserves (Writes e) := by
    cases op with
    | schemaOf t | register t => exact writes_schemaOf t
    | extract d => exact (writes_extract d).weaken
    | registerGeneric template => exact writes_registerGeneric template
    | declare d => exact writes_resolving fun _ => (Registry.writes_declare d).weaken
    | resolve name => exact writes_resolve name
    | resolveNode node => exact writes_resolveNode node
    | resolveSchema schema => exact writes_resolveSchema schema
    | codecOf t | serialize t _ | serializeInto t _ _ | serializeAt t _ _ _ | messageSize t _
    | deserialize t _ | deserializeFrom t _ => exact writes_codecOf t
    | codecOfSchema schema | serializeValue schema _ | serializeValueInto schema _ _
    | valueSize schema _ | deserializeValue schema _ | deserializeValueFrom schema _ =>
      exact writes_codecOfSchema schema
    | deserializeNamed typeName _ => exact writes_codecOfName typeName
  exact preserves.apply .refl

theorem writes_after (ops : List Operation) (e : Engine) : Writes e (after ops e) := by
  apply after_induction (I := Writes e) .refl
  exact fun op _ e' writes => writes.trans (writes_apply op e')

theorem after_of_write (kept : ∀ e e', Write e e' → I e → I e') (start : I e)
    (ops : List Operation) : I (after ops e) := by
  have writes := writes_after ops e
  generalize after ops e = later at writes
  induction writes with
  | refl => exact start
  | tail _ write ih => exact kept _ _ write ih

end SchemaCodec.Engine
