import SchemaCodec.Proofs.Registry.Writes

/-! # Growing registries

A registry only ever grows: what is noted or declared in it stays as it is. What a name resolves to
is held under it from then on.
-/

namespace SchemaCodec

open SchemaCodec.Action

/-! ## Growing caches -/

namespace Cache

variable {κ α : Type}

def Extends (cache later : Cache κ α) : Prop := cache.entries <+: later.entries

theorem extends_refl (cache : Cache κ α) : cache.Extends cache := List.prefix_refl _

theorem Extends.trans {cache later last : Cache κ α} (h : cache.Extends later)
    (h' : later.Extends last) : cache.Extends last := List.IsPrefix.trans h h'

variable [DecidableEq κ] {cache later : Cache κ α} {key : κ} {x : α}

theorem extends_add (cache : Cache κ α) (key : κ) (x : α) : cache.Extends (cache.add key x) := by
  unfold add
  split
  · exact extends_refl cache
  · exact List.prefix_append _ _

theorem Extends.get? (h : cache.Extends later) (found : cache.get? key = some x) :
    later.get? key = some x := by
  obtain ⟨more, same⟩ := h
  obtain ⟨entry, held, rfl⟩ := Option.map_eq_some_iff.mp found
  simp [Cache.get?, ← same, List.find?_append, held]

end Cache

namespace Registry

variable {r r' : Registry} {name : String} {d : Descriptor} {R : Error → Registry → Prop}

structure Grown (r r' : Registry) : Prop where
  resolved : r.resolved.Extends r'.resolved
  declared : r.declared.Extends r'.declared

theorem Write.grown (h : r.Write r') : r.Grown r' := by
  cases h with
  | resolved name d | synthesized name d =>
    exact ⟨Cache.extends_add r.resolved name d, Cache.extends_refl _⟩
  | declared d => exact ⟨Cache.extends_refl _, Cache.extends_add r.declared d.name d⟩
  | generic g => exact ⟨Cache.extends_refl _, Cache.extends_refl _⟩

theorem Writes.declares (h : Writes r r') (declared : r.Declares name) : r'.Declares name := by
  induction h with
  | refl => exact declared
  | tail _ write ih =>
    obtain ⟨d, known⟩ := ih
    exact ⟨d, write.grown.declared.get? known⟩

/-! ## What is held under a resolved name -/

theorem ends_remember {Q : Descriptor → Registry → Prop} :
    (remember name d).Ends r Q R ↔ Q (r.resolved.getOr name d) (r.note name d) := Iff.rfl

theorem ends_resolveWithin_noted (depth : Nat) (pending : List String) :
    (resolveWithin depth pending name).Ends r (fun d r' => r'.resolved.get? name = some d)
      fun _ _ => True := by
  unfold resolveWithin
  rw [ends_bind, ends_get]
  split
  · next known => exact known
  · split
    · trivial
    · cases depth with
      | zero => trivial
      | succ depth =>
        dsimp only
        rw [ends_bind]
        refine (keeps_trivial _ r trivial).mono (fun found r' _ => ?_) fun _ _ _ => trivial
        cases found with
        | none => trivial
        | some d => exact ends_remember.mpr (Cache.get?_add_self _ _ _)

theorem ends_resolve_noted (name : String) (r : Registry) :
    (Registry.resolve name).Ends r (fun d r' => r'.resolved.get? name = some d) fun _ _ => True :=
  ends_resolveWithin_noted depthLimit []

theorem ends_resolveNode_noted (node : Node) (r : Registry) :
    (resolveNode node).Ends r (fun d r' => r'.resolved.get? node.typeName = some d)
      fun _ _ => True := by
  obtain ⟨name, typeName, children⟩ := node
  rw [resolveNode.eq_def, ends_recover]
  refine (ends_resolve_noted typeName r).mono (fun _ _ noted => noted) fun e r' _ => ?_
  split
  · trivial
  · next handled =>
    split at handled
    · cases children with
      | nil => cases handled
      | cons child others =>
        obtain rfl := Option.some.inj handled
        rw [ends_bind]
        refine (keeps_trivial _ r' trivial).mono (fun members r'' _ => ?_) fun _ _ _ => trivial
        unfold addSynthesized
        rw [ends_bind, ends_get]
        split
        · next known => exact known
        · next new =>
          have added := Cache.get?_add_self r''.resolved typeName
            (.built typeName (TypeName.short typeName) .synthesized members)
          rw [Cache.getOr, new] at added
          exact added
    · cases handled

end Registry

end SchemaCodec
