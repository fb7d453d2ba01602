import Mathlib.Logic.Relation
import SchemaCodec.Proofs.Engine.Extraction
import SchemaCodec.Proofs.OffWire
import SchemaCodec.Proofs.Registry.Resolution

/-! # What a registry writes

Every step of resolution and synthesis, whether it fails or not, changes a registry by single
writes: a type is noted under a name, or a generic definition is put in place. It fails only off the
wire.
-/

namespace SchemaCodec.Registry

open Relation SchemaCodec.Action

inductive Write (r : Registry) : Registry → Prop

  | resolved (name : String) (d : Descriptor) : Write r (r.note name d)

  | synthesized (name : String) (d : Descriptor) :
      Write r { r.note name d with synthesized := r.synthesized + 1 }

  | declared (d : Descriptor) : Write r { r with declared := r.declared.add d.name d }

  | generic (g : Generic) : Write r { r with generics := r.generics.put g.base g }

abbrev Writes : Registry → Registry → Prop := ReflTransGen Write

section Resolution

/-- What a resolution can fail with, apart from a name that is resolved too deep. -/
structure Faults (R : Error → Prop) : Prop where
  missing : ∀ name, R (.typeNotFound name)
  cycle : ∀ pending, R (.dependencyCycle pending)
  unbound : ∀ i, R (.notSerializable (TypeName.parameter i) .parameterOutOfRange)
  arity : ∀ expected found, R (.typeMismatch expected found)

variable {I : Registry → Prop} {R : Error → Prop} {resolve : String → Action Registry Descriptor}

theorem faults_bindMember (faults : Faults R)
    (h : ∀ name, (resolve name).Keeps I R fun _ => True) (args : List Descriptor) (d : Descriptor) :
    (bindMember resolve args d).Keeps I R fun _ => True := by
  induction d with
  | primitive p => exact keeps_pure trivial
  | parameter i =>
    rw [bindMember]
    split
    · exact keeps_pure trivial
    · exact keeps_fail (faults.unbound i)
  | sequence container element ih =>
    rw [bindMember]
    split
    · exact ih.map
    · exact keeps_pure trivial
  | declared id args' =>
    unfold bindMember
    split
    · exact h _
    · exact keeps_pure trivial
  | built name short origin members _ =>
    unfold bindMember
    split
    · exact h _
    · exact keeps_pure trivial

theorem faults_of_members (faults : Faults R) {g : Generic} {args : List Descriptor}
    (members : ∀ m ∈ g.members, (bindMember resolve args m.2).Keeps I R fun _ => True) :
    (instantiate resolve g args).Keeps I R fun _ => True := by
  unfold instantiate
  split
  · exact keeps_fail (faults.arity _ _)
  · refine (Keeps.traverse (Q := fun _ _ => True) fun m mem => ?_).bind fun members _ =>
      (keeps_report _).bind fun _ _ => keeps_pure trivial
    exact (members m mem).bind fun _ _ => keeps_pure trivial

theorem faults_instantiate (faults : Faults R)
    (h : ∀ name, (resolve name).Keeps I R fun _ => True) (g : Generic) (args : List Descriptor) :
    (instantiate resolve g args).Keeps I R fun _ => True :=
  faults_of_members faults fun m _ => faults_bindMember faults h args m.2

theorem faults_resolveBase (faults : Faults R)
    (h : ∀ name, (resolve name).Keeps I R fun _ => True) (base : String) :
    (resolveBase resolve base).Keeps I R fun _ => True := by
  refine keeps_get.bind fun r _ => ?_
  split
  · exact keeps_pure trivial
  · split
    · exact (Keeps.traverse (Q := fun _ _ => True) fun name _ => h name).bind fun args _ =>
        (faults_instantiate faults h _ args).bind fun _ _ => keeps_pure trivial
    · exact keeps_pure trivial

theorem keeps_remember (noting : ∀ r name d, I r → I (r.note name d)) (name : String)
    (d : Descriptor) : (remember name d).Keeps I R fun _ => True :=
  keeps_get.bind fun _ _ =>
    (keeps_modify fun r h => noting r name d h).bind fun _ _ => keeps_pure trivial

/-- Resolution keeps what every note keeps. At most the names that are neither noted nor under
resolution are resolved too deep. -/
theorem faults_resolveWithin (faults : Faults R) (noting : ∀ r name d, I r → I (r.note name d))
    (given : List String)
    (deep : ∀ r name, I r → r.resolved.get? name = none → name ∉ given → R (.unbounded name))
    (depth : Nat) {pending : List String} (sub : given ⊆ pending) (name : String) :
    (resolveWithin depth pending name).Keeps I R fun _ => True := by
  induction depth generalizing pending name with
  | zero =>
    intro r hr
    unfold resolveWithin
    rw [ends_bind, ends_get]
    split
    · exact keeps_pure trivial r hr
    · next new =>
      split
      · exact keeps_fail (faults.cycle pending) r hr
      · next fresh => exact keeps_fail (deep r name hr new fun mem => fresh (sub mem)) r hr
  | succ depth ih =>
    unfold resolveWithin
    refine keeps_get.bind fun r _ => ?_
    split
    · exact keeps_pure trivial
    · split
      · exact keeps_fail (faults.cycle pending)
      · refine (faults_resolveBase faults (fun name => ?_) _).bind fun found _ => ?_
        · exact ih (fun other mem => List.mem_append_left _ (sub mem)) name
        · split
          · exact keeps_fail (faults.missing name)
          · exact keeps_remember noting _ _

theorem keeps_addSynthesized {typeName : String}
    (making : ∀ r, I r → ∀ members,
      I { r.note typeName (.built typeName (TypeName.short typeName) .synthesized members) with
        synthesized := r.synthesized + 1 })
    (members : List (String × Descriptor)) :
    (addSynthesized typeName members).Keeps I R fun _ => True := by
  refine keeps_get.bind fun r _ => ?_
  split
  · exact keeps_pure trivial
  · exact (keeps_report _).bind fun _ _ =>
      (keeps_modify fun r h => making r h _).bind fun _ _ => keeps_pure trivial

theorem keeps_resolveNode (unnamed : ∀ owner, R (.malformed (.unnamedChild owner)))
    (names : ∀ name, (Registry.resolve name).Keeps I R fun _ => True)
    (records : ∀ typeName members, (addSynthesized typeName members).Keeps I R fun _ => True)
    (node : Node) : (resolveNode node).Keeps I R fun _ => True := by
  induction node with
  | mk name typeName children ih =>
    rw [resolveNode.eq_def]
    refine (names typeName).recover fun e other found => ?_
    split at found
    · split at found
      · cases found
      · obtain rfl := Option.some.inj found
        exact (keeps_resolveChildren unnamed ih typeName).bind fun members _ =>
          records typeName members
    · cases found

end Resolution

variable {r₀ : Registry}

theorem faults_offWire : Faults Error.OffWire :=
  ⟨fun _ => rfl, fun _ => rfl, fun _ => rfl, fun _ _ => rfl⟩

theorem writes_resolveWithin (depth : Nat) (pending : List String) (name : String) :
    (resolveWithin depth pending name).Keeps (Writes r₀) Error.OffWire fun _ => True :=
  faults_resolveWithin faults_offWire (fun _ name d h => h.tail (.resolved name d)) []
    (fun _ _ _ _ _ => rfl) depth (List.nil_subset pending) name

theorem writes_resolve (name : String) :
    (Registry.resolve name).Keeps (Writes r₀) Error.OffWire fun _ => True :=
  writes_resolveWithin depthLimit [] name

theorem writes_addSynthesized (typeName : String) (members : List (String × Descriptor)) :
    (addSynthesized typeName members).Keeps (Writes r₀) Error.OffWire fun _ => True :=
  keeps_addSynthesized (fun _ h _ => h.tail (.synthesized typeName _)) members

theorem writes_resolveNode (node : Node) :
    (resolveNode node).Keeps (Writes r₀) Error.OffWire fun _ => True :=
  keeps_resolveNode (fun _ => rfl) writes_resolve writes_addSynthesized node

theorem writes_declare (d : Descriptor) :
    (declare d).Keeps (Writes r₀) Error.OffWire fun _ => True :=
  keeps_declare fun _ h _ => h.tail (.declared d)

theorem writes_declareGeneric (g : Generic) :
    (declareGeneric g).Keeps (Writes r₀) Error.OffWire fun _ => True :=
  (keeps_report _).bind fun _ _ => keeps_modify fun _ h => h.tail (.generic g)

theorem writes_declareAll (C : Catalog) (records : List Descriptor) :
    (Engine.declareAll C records).Keeps (Writes r₀) Error.OffWire fun _ => True :=
  keeps_declareAll fun d _ _ => writes_declare d

end SchemaCodec.Registry
