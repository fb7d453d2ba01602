import SchemaCodec.Proofs.Engine.Growth
import SchemaCodec.Proofs.Schema.Reachability

/-! # Rounds of compilation

A round of compilation hands over to another one at most once, at its end and with a schema that was
extracted from a record. Such a schema lists its own root, so the next round either fails or finds
the coding of the root once it has compiled what is listed. It never hands over again.
-/

namespace SchemaCodec

open SchemaCodec.Action

namespace Engine

variable {schema : Schema} {root : Option Descriptor}
  {f : Schema → Option Descriptor → Action Engine Codec}

/-- What is left to do at the end of a round of compilation. -/
inductive Exit
  /-- Nothing: the coding was found under the name of the root. -/
  | held (codec : Codec)
  /-- The root is to be compiled from its type, which is no record. -/
  | root (d : Descriptor)
  /-- The schema extracted from the root does not list it, which is an error. -/
  | rootless
  /-- Another round, with the schema extracted from the root. -/
  | again (full : Schema) (d : Descriptor)

/-- A round of compilation without its last step. -/
def leave (schema : Schema) (root : Option Descriptor) : Action Engine Exit := do
  compileNodes schema.types
  let e ← Action.get
  match e.compiled.get? schema.typeName with
  | some codec => return .held codec
  | none =>
    let d ← rootType schema root
    if d.isRecord then
      let full ← extract d
      match full.root? with
      | none => return .rootless
      | some _ => return .again full d
    else return .root d

def Exit.follow (again : Schema → Descriptor → Action Engine Codec) (schema : Schema) :
    Exit → Action Engine Codec
  | .held codec => Action.pure codec
  | .root d => compileRoot schema.typeName d
  | .rootless => Action.fail (.typeNotFound schema.typeName)
  | .again full d => again full d

theorem compileRound_eq (again : Schema → Descriptor → Action Engine Codec) (schema : Schema)
    (root : Option Descriptor) :
    compileRound again schema root = leave schema root >>= Exit.follow again schema := by
  unfold compileRound leave
  rw [bind_bind]
  refine congrArg _ (funext fun _ => ?_)
  rw [bind_bind]
  refine congrArg _ (funext fun e => ?_)
  cases e.compiled.get? schema.typeName with
  | some codec => rfl
  | none =>
    dsimp only
    rw [bind_bind]
    refine congrArg _ (funext fun d => ?_)
    by_cases isRecord : d.isRecord = true
    · rw [if_pos isRecord, if_pos isRecord, bind_bind]
      refine congrArg _ (funext fun full => ?_)
      cases full.root? <;> rfl
    · rw [if_neg isRecord, if_neg isRecord]
      rfl

/-! ## Ends of rounds -/

theorem ends_leave (schema : Schema) (root : Option Descriptor) (e : Engine) :
    (leave schema root).Ends e (fun exit _ => exit ≠ .rootless ∧
      ∀ full d, exit = .again full d → full.root?.isSome) fun _ _ => True := by
  unfold leave
  rw [ends_bind]
  refine (keeps_trivial _ e trivial).mono (fun _ e _ => ?_) fun _ _ _ => trivial
  rw [ends_bind, ends_get]
  split
  · exact ⟨by rintro ⟨⟩, by rintro _ _ ⟨⟩⟩
  · rw [ends_bind]
    refine (keeps_trivial _ e trivial).mono (fun d e _ => ?_) fun _ _ _ => trivial
    split
    · next isRecord =>
      rw [ends_bind]
      refine (ends_extract_grown d e).mono ?_ fun _ _ _ => trivial
      rintro _ e' ⟨⟨ext, extracted, rfl⟩, -⟩
      have rooted := Extraction.isSome_root? extracted isRecord
      split
      · next missing =>
        rw [missing] at rooted
        cases rooted
      · refine ⟨by rintro ⟨⟩, ?_⟩
        rintro _ _ ⟨⟩
        exact rooted
    · exact ⟨by rintro ⟨⟩, by rintro _ _ ⟨⟩⟩

theorem ends_leave_rooted (rooted : schema.root?.isSome) (root : Option Descriptor) (e : Engine) :
    (leave schema root).Ends e (fun exit _ => ∃ c, exit = .held c) fun _ _ => True := by
  unfold leave
  rw [ends_bind]
  refine (ends_compileNodes_listed schema.types e).mono (fun _ e listed => ?_) fun _ _ _ => trivial
  obtain ⟨c, compiled⟩ := compiles_root rooted listed
  rw [ends_bind, ends_get, compiled]
  exact ⟨c, rfl⟩

/-! ## Whole compilations -/

theorem compileRound_congr {again again' : Schema → Descriptor → Action Engine Codec}
    (same : ∀ full d, full.root?.isSome → again full d = again' full d) :
    compileRound again schema root = compileRound again' schema root := by
  rw [compileRound_eq, compileRound_eq]
  funext e
  refine Ends.bind_congr ((ends_leave schema root e).mono ?_ fun _ _ h => h)
  rintro exit s ⟨-, rooted⟩
  cases exit with
  | again full d => exact congrFun (same full d (rooted full d rfl)) s
  | _ => rfl

/-- A schema that lists its root takes one round. -/
theorem compileRound_rooted {again again' : Schema → Descriptor → Action Engine Codec}
    (rooted : schema.root?.isSome) :
    compileRound again schema root = compileRound again' schema root := by
  rw [compileRound_eq, compileRound_eq]
  funext e
  refine Ends.bind_congr ((ends_leave_rooted rooted root e).mono ?_ fun _ _ h => h)
  rintro _ s ⟨c, rfl⟩
  rfl

/-- Compilation is what calls itself for the other rounds, and nothing else is. -/
theorem compile_iff : (∀ schema root, f schema root =
    compileRound (fun full d => f full (some d)) schema root) ↔ f = compile := by
  constructor
  · intro unfolds
    funext schema root
    refine (unfolds schema root).trans (compileRound_congr fun full d rooted => ?_)
    exact (unfolds full (some d)).trans (compileRound_rooted rooted)
  · rintro rfl schema root
    exact compileRound_congr fun full d rooted => compileRound_rooted rooted

/-- A call of compilation: a schema, perhaps with its root type, on an engine. -/
structure Round where
  schema : Schema
  root : Option Descriptor
  start : Engine

namespace Round

def exit (r : Round) : Outcome Engine Exit := leave r.schema r.root r.start

/-- The further call that the call makes. -/
def next? (r : Round) : Option Round :=
  match r.exit.result with
  | .ok (.again full d) => some ⟨full, some d, r.exit.state⟩
  | _ => none

theorem next?_eq_some {r r' : Round} (h : r.next? = some r') :
    ∃ full d, r.exit.result = .ok (.again full d) ∧ r' = ⟨full, some d, r.exit.state⟩ := by
  unfold next? at h
  split at h
  · next result => exact ⟨_, _, result, (Option.some.inj h).symm⟩
  · cases h

end Round

/-- On every engine, a call of compilation makes at most one further call, as its last step. The
further call finds the coding of its root or fails, without a call of its own. The schema extracted
from a record never leaves it out. So one function only calls itself like this, namely compilation
with its limit of two rounds. -/
theorem compile_rounds :
    (∀ again schema root,
      compileRound again schema root = leave schema root >>= Exit.follow again schema) ∧
    (∀ r : Round, r.exit.result ≠ .ok .rootless ∧ ∀ r', r.next? = some r' →
      ((∃ c, r'.exit.result = .ok (.held c)) ∨ ∃ err, r'.exit.result = .error err) ∧
        r'.next? = none) ∧
    ∀ f, (∀ schema root, f schema root =
      compileRound (fun full d => f full (some d)) schema root) ↔ f = compile := by
  refine ⟨compileRound_eq, fun r => ⟨fun no => ?_, fun r' called => ?_⟩, fun f => compile_iff⟩
  · exact ((ends_leave r.schema r.root r.start).of_ok no).1 rfl
  · obtain ⟨full, d, result, rfl⟩ := Round.next?_eq_some called
    have rooted := ((ends_leave r.schema r.root r.start).of_ok result).2 full d rfl
    have ends := ends_leave_rooted rooted (some d) r.exit.state
    cases result' : (Round.mk full (some d) r.exit.state).exit.result with
    | error err => exact ⟨.inr ⟨err, rfl⟩, by unfold Round.next?; rw [result']⟩
    | ok exit =>
      obtain ⟨c, rfl⟩ := ends.of_ok result'
      exact ⟨.inl ⟨c, rfl⟩, by unfold Round.next?; rw [result']⟩

/-- A schema that spells the name of its root in another way than that of the node it lists: the
record that the root resolves to is compiled under its own name. -/
theorem compile_rounds_respelled : ∃ r r' : Round, r.schema.typeName = " A" ∧
    r.next? = some r' ∧ r'.schema.typeName = "A" ∧ (∃ c, r'.exit.result = .ok (.held c)) ∧
    r'.next? = none := by
  let r : Round := ⟨⟨" A", 0, [.mk none "A" [.member "items" "i32[]"]]⟩, none,
    fresh ⟨fun _ => ⟨[], true, .declared⟩, 1⟩ .standard⟩
  have called : (r.next?.map fun r' => (r'.schema.typeName, r'.exit.result.isOk)) =
      some ("A", true) := by
    decide +kernel
  obtain ⟨r', next, same⟩ := Option.map_eq_some_iff.mp called
  obtain ⟨named, ends⟩ := Prod.mk.inj same
  obtain ⟨-, rounds, -⟩ := compile_rounds
  obtain ⟨held | ⟨err, failed⟩, last⟩ := (rounds r).2 r' next
  · exact ⟨r, r', rfl, next, named, held, last⟩
  · rw [failed] at ends
    cases ends

end Engine

end SchemaCodec
