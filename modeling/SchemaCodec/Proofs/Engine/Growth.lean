import SchemaCodec.Proofs.Engine.Frame
import SchemaCodec.Proofs.Registry.Growth

/-! # What engines hold

Nothing that an engine holds under a name is ever changed or removed, whatever is called. The
codings of all types that a schema lists are held, and so is that of its root.
-/

namespace SchemaCodec

open SchemaCodec.Action

namespace Engine

variable {C : Catalog} {limits : Limits} {e e' : Engine} {S : Schema} {c : Codec} {d : Descriptor}
  {t : MessageType} {name : String}

/-- The engine still holds every schema, coding, resolved and declared type, each as it was. -/
structure Grown (e e' : Engine) : Prop where
  catalog_eq : e'.catalog = e.catalog
  limits_eq : e'.limits = e.limits
  schemas : e.schemas.Extends e'.schemas
  compiled : e.compiled.Extends e'.compiled
  resolved : e.registry.resolved.Extends e'.registry.resolved
  declared : e.registry.declared.Extends e'.registry.declared

theorem grown_refl (e : Engine) : e.Grown e :=
  ⟨rfl, rfl, Cache.extends_refl _, Cache.extends_refl _, Cache.extends_refl _,
    Cache.extends_refl _⟩

theorem Grown.trans {e'' : Engine} (h : e.Grown e') (h' : e'.Grown e'') : e.Grown e'' where
  catalog_eq := h'.catalog_eq.trans h.catalog_eq
  limits_eq := h'.limits_eq.trans h.limits_eq
  schemas := h.schemas.trans h'.schemas
  compiled := h.compiled.trans h'.compiled
  resolved := h.resolved.trans h'.resolved
  declared := h.declared.trans h'.declared

theorem Write.grown (h : e.Write e') : e.Grown e' := by
  cases h with
  | registry write =>
    exact { grown_refl e with resolved := write.grown.resolved, declared := write.grown.declared }
  | counters f => exact { grown_refl e with }
  | @compiled c _ =>
    exact { grown_refl e with compiled := Cache.extends_add e.compiled c.typeName c }
  | @schema t ext _ =>
    exact { grown_refl e with schemas := Cache.extends_add e.schemas t ext.schema }

theorem Writes.grown (h : Writes e e') : e.Grown e' := by
  induction h with
  | refl => exact grown_refl e
  | tail _ write ih => exact ih.trans write.grown

/-- No call removes or changes what the engine holds. -/
theorem grown_after (ops : List Operation) (e : Engine) : e.Grown (after ops e) :=
  Writes.grown (writes_after ops e)

theorem ends_grown {α : Type} {step : Action Engine α} {Q : α → Engine → Prop}
    {R : Error → Engine → Prop} {P : α → Prop}
    (writes : step.Keeps (Writes e) (fun _ => True) P) (h : step.Ends e Q R) :
    step.Ends e (fun x e' => Q x e' ∧ e.Grown e') fun _ _ => True :=
  (h.and (writes e .refl)).mono (fun _ _ hx => ⟨hx.1, Writes.grown hx.2.1⟩) fun _ _ _ => trivial

/-! ## What is held after compilation -/

def Compiles (e : Engine) (name : String) : Prop := ∃ c, e.compiled.get? name = some c

theorem Compiles.grown (h : e.Compiles name) (grown : e.Grown e') : e'.Compiles name := by
  obtain ⟨c, found⟩ := h
  exact ⟨c, grown.compiled.get? found⟩

theorem compiles_note (e : Engine) (c : Codec) : (e.note c).Compiles c.typeName :=
  ⟨_, Cache.get?_add_self _ _ _⟩

theorem unlisted_of_missing {nodes : List Node} (listed : ∀ node ∈ nodes, e.Compiles node.typeName)
    (missing : e.compiled.get? name = none) : ∀ node ∈ nodes, node.typeName ≠ name := by
  intro node mem same
  obtain ⟨c, found⟩ := listed node mem
  rw [same, missing] at found
  cases found

theorem compiles_root (rooted : S.root?.isSome)
    (listed : ∀ node ∈ S.types, e.Compiles node.typeName) : e.Compiles S.typeName := by
  obtain ⟨node, found⟩ := Option.isSome_iff_exists.mp rooted
  have named : node.typeName = S.typeName := by simpa using List.find?_some found
  exact named ▸ listed node (List.mem_of_find?_eq_some found)

theorem ends_compileNodes_listed (nodes : List Node) (e : Engine) :
    (compileNodes nodes).Ends e (fun _ e' => ∀ node ∈ nodes, e'.Compiles node.typeName)
      fun _ _ => True := by
  induction nodes generalizing e with
  | nil => exact List.forall_mem_nil _
  | cons node nodes ih =>
    -- Once the first node is compiled, it stays so while the others are.
    have rest : ∀ e, e.Compiles node.typeName → (compileNodes nodes).Ends e
        (fun _ e' => ∀ n ∈ node :: nodes, e'.Compiles n.typeName) fun _ _ => True := by
      intro e first
      refine (ends_grown (writes_compileNodes nodes) (ih e)).mono ?_ fun _ _ _ => trivial
      rintro _ e' ⟨listed, grown⟩
      exact List.forall_mem_cons.mpr ⟨first.grown grown, listed⟩
    rw [compileNodes, ends_bind, ends_get]
    split
    · next known => exact rest e (Cache.contains_iff.mp known)
    · rw [ends_bind]
      refine (keeps_trivial _ e trivial).mono (fun d e' _ => ?_) fun _ _ _ => trivial
      rw [ends_bind, ends_get, ends_bind, ends_ofExcept]
      refine ⟨fun plan _ => ?_, fun _ _ => trivial⟩
      rw [ends_bind, ends_report, ends_bind, ends_keep_held]
      exact rest _ (compiles_note e' ⟨node.typeName, plan, e'.limits⟩)

/-- The codings of a schema's listed nodes are held, and one under the name of its root. -/
def Equipped (e : Engine) (S : Schema) (c : Codec) : Prop :=
  e.compiled.get? S.typeName = some c ∧ ∀ node ∈ S.types, e.Compiles node.typeName

theorem ends_compileRoot_held (name : String) (d : Descriptor) (e : Engine) :
    (compileRoot name d).Ends e (fun c e' => e'.compiled.get? name = some c) fun _ _ => True := by
  unfold compileRoot
  rw [ends_bind, ends_get, ends_bind, ends_ofExcept]
  refine ⟨fun plan _ => ?_, fun _ _ => trivial⟩
  rw [ends_bind, ends_report, ends_keep_held]
  exact Cache.get?_add_self _ _ _

theorem ends_extract_grown (d : Descriptor) (e : Engine) :
    (extract d).Ends e
      (fun full e' => (∃ ext, Extraction.ofDescriptor e.catalog d = .ok ext ∧ full = ext.schema) ∧
        e.Grown e') fun _ _ => True :=
  (writes_extract d e .refl).mono (fun _ _ hx => ⟨hx.2, Writes.grown hx.1⟩) fun _ _ _ => trivial

theorem ends_compileRound_held {again : Schema → Descriptor → Action Engine Codec}
    (writes : ∀ e₀ full d, (again full d).Keeps (Writes e₀) (fun _ => True) fun _ => True)
    (held : ∀ full d e, full.typeName = d.name →
      (again full d).Ends e (fun c e' => e'.Equipped full c) fun _ _ => True)
    (named : S.typeName = d.name) (e : Engine) :
    (compileRound again S (some d)).Ends e (fun c e' => e'.Equipped S c) fun _ _ => True := by
  unfold compileRound
  rw [ends_bind]
  refine (ends_compileNodes_listed S.types e).mono (fun _ e listed => ?_) fun _ _ _ => trivial
  rw [ends_bind, ends_get]
  split
  · next found => exact ⟨found, listed⟩
  · rw [rootType, ends_bind, ends_pure]
    split
    · rw [ends_bind]
      refine (ends_extract_grown d e).mono ?_ fun _ _ _ => trivial
      rintro _ e' ⟨⟨ext, extracted, rfl⟩, grown⟩
      have same := (Extraction.ofDescriptor_eq_ok extracted).2.1
      split
      · trivial
      · refine (ends_grown (writes e' _ d) (held _ d e' same)).mono ?_ fun _ _ _ => trivial
        rintro c e'' ⟨⟨found, -⟩, grown'⟩
        rw [same, ← named] at found
        exact ⟨found, fun node mem => (listed node mem).grown (grown.trans grown')⟩
    · refine (ends_grown (writes_compileRoot _ d) (ends_compileRoot_held _ d e)).mono ?_
        fun _ _ _ => trivial
      exact fun c e' held => ⟨held.1, fun node mem => (listed node mem).grown held.2⟩

theorem ends_compileLast_held (named : S.typeName = d.name) (e : Engine) :
    (compileWithin 0 S (some d)).Ends e (fun c e' => e'.Equipped S c) fun _ _ => True := by
  apply ends_compileRound_held ?_ ?_ named
  · exact fun _ _ _ => keeps_fail trivial
  · exact fun _ _ _ _ => trivial

theorem ends_compile_held (named : S.typeName = d.name) (e : Engine) :
    (compile S (some d)).Ends e (fun c e' => e'.Equipped S c) fun _ _ => True := by
  apply ends_compileRound_held ?_ ?_ named
  · exact fun _ full d => writes_compileRound (fun _ _ => keeps_fail trivial) full (some d)
  · exact fun full d e same => ends_compileLast_held same e

end Engine

end SchemaCodec
