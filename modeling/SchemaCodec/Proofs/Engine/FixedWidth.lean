import SchemaCodec.Proofs.Engine.Coherence
import SchemaCodec.Proofs.Plan.Draft
import SchemaCodec.Proofs.Plan.Failures
import SchemaCodec.Proofs.Plan.Refusals

/-! # Fixed widths

Whatever calls an engine has taken, it codes only primitives of a fixed width as scalars, and never
a decimal. A coding is drawn up from a type name and a type, either of which may come from anywhere.
Every draft that is made in this way is a plan, because those that it embeds were made before it and
are plans themselves.
-/

namespace SchemaCodec

/-- A draft that compilation may come to under a name: that of a node from its type, or that of a
root from its type. All that it can embed was made before. -/
inductive Draft.Made (C : Catalog) : String → Draft → Prop

  | record {compiled : String → Option Draft} {node : Node} {d : Descriptor} {draft : Draft} :
      (∀ name inner, compiled name = some inner → Made C name inner) →
      ofNode compiled C node d = .ok draft → Made C node.typeName draft

  | root {compiled : String → Option Draft} {typeName : String} {d : Descriptor} {draft : Draft} :
      (∀ name inner, compiled name = some inner → Made C name inner) →
      choose compiled typeName d typeName = .ok draft → Made C typeName draft

variable {C : Catalog} {limits : Limits} {name : String} {c : Codec} {e : Engine}

theorem Plan.exists_drafts {compiled : String → Option Draft}
    (h : ∀ name inner, compiled name = some inner → ∃ plan : Plan, inner = plan.draft) :
    ∃ plans, compiled = drafts plans := by
  have each : ∀ name, ∃ plan?, compiled name = Option.map draft plan? := by
    intro name
    cases found : compiled name with
    | none => exact ⟨none, rfl⟩
    | some inner =>
      obtain ⟨plan, rfl⟩ := h name inner found
      exact ⟨some plan, rfl⟩
  obtain ⟨plans, same⟩ := Classical.skolem.mp each
  exact ⟨plans, funext same⟩

theorem Plan.supported_draft (plan : Plan) (v : Value) (primitive : String) :
    (∀ s t, plan.draft.encode v s ≠ .error (.unsupportedPrimitive primitive) t) ∧
      plan.draft.exactSize v ≠ .error (.unsupportedPrimitive primitive) := by
  rw [encode_draft, exactSize_draft]
  constructor
  · intro s t failed
    rcases (plan.failsOnly_emit v).writeTo failed with no | ⟨_, no⟩
    · cases no
    · cases no
  · intro failed
    cases plan.failsOnly_exactSize v _ failed

theorem Draft.Made.exists_plan {draft : Draft} (h : Made C name draft) :
    ∃ plan : Plan, draft = plan.draft := by
  induction h with
  | record _ chosen ih =>
    obtain ⟨plans, rfl⟩ := Plan.exists_drafts ih
    rw [Plan.ofNode_drafts] at chosen
    obtain ⟨plan, -, rfl⟩ := map_eq_ok.mp chosen
    exact ⟨plan, rfl⟩
  | root _ chosen ih =>
    obtain ⟨plans, rfl⟩ := Plan.exists_drafts ih
    rw [Plan.choose_drafts] at chosen
    obtain ⟨plan, -, rfl⟩ := map_eq_ok.mp chosen
    exact ⟨plan, rfl⟩

namespace Engine

theorem Makes.made (h : e.Makes c)
    (held : ∀ name c, e.compiled.get? name = some c → Draft.Made e.catalog name c.plan.draft) :
    Draft.Made e.catalog c.typeName c.plan.draft := by
  have before : ∀ name inner, Plan.drafts e.plan? name = some inner →
      Draft.Made e.catalog name inner := by
    intro name inner found
    obtain ⟨plan, stored, rfl⟩ := Option.map_eq_some_iff.mp found
    obtain ⟨c, cached, rfl⟩ := plan?_eq_some.mp stored
    exact held name c cached
  cases h with
  | record chosen => exact .record before (by rw [Plan.ofNode_drafts, chosen]; rfl)
  | root chosen => exact .root before (by rw [Plan.choose_drafts, chosen]; rfl)

/-- Step: a single change leaves only made codings behind. -/
theorem made_write {e' : Engine} (write : e.Write e')
    (held : ∀ name c, e.compiled.get? name = some c → Draft.Made e.catalog name c.plan.draft) :
    ∀ name c, e'.compiled.get? name = some c → Draft.Made e'.catalog name c.plan.draft := by
  intro name c found
  cases write with
  | compiled made =>
    rcases Cache.get?_add_eq_some found with old | ⟨-, rfl, rfl⟩
    · exact held name c old
    · exact made.made held
  | _ => exact held name c found

/-- Run: every coding in a reachable engine was made. -/
theorem Reachable.made (reached : Reachable C limits e) (found : e.compiled.get? name = some c) :
    Draft.Made C name c.plan.draft := by
  obtain ⟨ops, rfl⟩ := reached
  have held := after_of_write (e := fresh C limits) (fun _ _ => made_write)
    (fun _ _ no => by cases no) ops name c found
  rwa [Writes.catalog_eq (writes_after ops _)] at held

/-- In every reachable engine, a coding does what a draft does that was made under its name. A draft
that can be made under any name codes only primitives of the twelve fixed-width kinds as scalars, at
whatever depth. So it never meets a primitive that it cannot write or measure, and it fails to read
a buffer only on the bytes. Sequences of decimals, of whatever depth and name, have no draft. -/
theorem codes_fixed_width (reached : Reachable C limits e)
    (found : e.compiled.get? name = some c) :
    (∃ draft, Draft.Made C name draft ∧
      c.encode = draft.encode ∧ c.exactSize = draft.exactSize ∧ c.decode = draft.decode limits) ∧
    (∀ other draft, Draft.Made C other draft →
      (∀ p, draft.Codes p → ∃ k, p = .scalar k) ∧
      (∀ v primitive, (∀ s t, draft.encode v s ≠ .error (.unsupportedPrimitive primitive) t) ∧
        draft.exactSize v ≠ .error (.unsupportedPrimitive primitive)) ∧
      ∀ position bytes err t, draft.decode limits (.buffer position bytes) = .error err t →
        err.OfBytes) ∧
    ∀ owner d typeName, d.innermost = .primitive .decimal →
      ∀ draft, Draft.choose (Plan.drafts e.plan?) owner d typeName ≠ .ok draft := by
  refine ⟨?_, ?_, ?_⟩
  · obtain rfl : c.limits = limits := (reached.sound.codec name c found).limits_eq
    refine ⟨c.plan.draft, reached.made found, ?_, ?_, ?_⟩
    · exact funext fun v => (c.plan.encode_draft v).symm
    · exact funext fun v => (c.plan.exactSize_draft v).symm
    · exact c.plan.decode_draft.symm
  · intro other draft made
    obtain ⟨plan, rfl⟩ := made.exists_plan
    refine ⟨fun p => Plan.codes_draft, plan.supported_draft, ?_⟩
    rw [Plan.decode_draft]
    exact plan.failsWith_decode
  · exact fun owner d typeName decimal draft => Draft.choose_decimal _ owner decimal typeName draft

/-- Characters and runs of integers, asked for by other names of theirs, within a list of records:
a surrogate is refused as no character, and decimals in the place of the integers have no draft. -/
theorem codes_fixed_width_aliases : ∃ e c,
    Reachable ⟨fun _ => ⟨[], true, .declared⟩, 0⟩ .standard e ∧ e.compiled.get? "P" = some c ∧
    (∃ err t, c.decode (.ofBytes [1, 0, 0, 0, 0, 0xD8, 0, 0]) = .error err t ∧ err.OfBytes) ∧
    ∀ draft, Draft.choose (Plan.drafts e.plan?) "R" (.sequence .list (.sequence .array
      (.primitive .decimal))) "decimal[][]" ≠ .ok draft := by
  let schema : Schema := ⟨"P", 0,
    [.mk none "R" [.member "letter" "System.Char", .member "runs" "i16[][]"],
     .mk none "P" [.member "items" "R[]", .member "label" "str"]]⟩
  have planned : (after [.codecOfSchema schema]
      (fresh ⟨fun _ => ⟨[], true, .declared⟩, 0⟩ .standard)).plan? "P" =
      some (.record "P" [("items", .elements (.record "R"
        [("letter", .scalar .char), ("runs", .elements (.bulk .int16))])), ("label", .text)]) := by
    decide +kernel
  obtain ⟨typeName, found⟩ := Reachable.exists_codec ⟨_, rfl⟩ planned
  obtain ⟨⟨draft, made, -, -, decodes⟩, supported, refused⟩ := codes_fixed_width ⟨_, rfl⟩ found
  obtain ⟨-, -, onBytes⟩ := supported _ draft made
  have run := onBytes 0 [1, 0, 0, 0, 0, 0xD8, 0, 0] (.wire (.notCharacter 0xD800))
    (.buffer 8 [])
  rw [← decodes] at run
  exact ⟨_, _, ⟨_, rfl⟩, found, ⟨_, _, rfl, run rfl⟩, refused _ _ _ rfl⟩

end Engine

end SchemaCodec
