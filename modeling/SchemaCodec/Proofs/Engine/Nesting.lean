import SchemaCodec.Proofs.Engine.Growth
import SchemaCodec.Proofs.Plan.Choice

/-! # Records within compiled types

A coding is made from codings that the engine holds by then, and what is held is never replaced. So
whatever record is within a held coding is coded just as the engine codes it by itself. Its own
coding came first, and following records inwards comes to an end.
-/

namespace SchemaCodec

open Relation

namespace Plan

variable {compiled : String → Option Plan} {d : Descriptor} {typeName inner : String} {plan : Plan}
  {fields : List (String × Plan)}

inductive Part : Plan → Plan → Prop

  | element {element : Plan} : Part element (.elements element)

  | member {typeName : String} {fields : List (String × Plan)} {field : String × Plan} :
      field ∈ fields → Part field.2 (.record typeName fields)

/-- The plan uses that of a record, at whatever depth. -/
def Nests (plan : Plan) (inner : String) (fields : List (String × Plan)) : Prop :=
  TransGen Part (.record inner fields) plan

theorem Chosen.exists_compiled (h : Chosen compiled d typeName plan)
    (within : ReflTransGen Part (.record inner fields) plan) :
    ∃ name held, compiled name = some held ∧ ReflTransGen Part (.record inner fields) held := by
  induction h with
  | record _ _ _ _ found => exact ⟨_, _, found, within⟩
  | elements _ _ _ ih =>
    rcases ReflTransGen.cases_tail within with no | ⟨p, within, part⟩
    · cases no
    · cases part with
      | element => exact ih within
  | _ =>
    rcases ReflTransGen.cases_tail within with no | ⟨p, -, part⟩
    · cases no
    · cases part

theorem exists_compiled_ofNode {C : Catalog} {node : Node}
    (h : ofNode compiled C node d = .ok plan) (nested : plan.Nests inner fields) :
    ∃ name held, compiled name = some held ∧ ReflTransGen Part (.record inner fields) held := by
  obtain ⟨members, _, -, rfl, all⟩ := ofNode_iff.mp h
  obtain ⟨p, within, part⟩ := TransGen.tail'_iff.mp nested
  cases part with
  | member mem =>
    obtain ⟨child, -, d, -, -, chosen⟩ := partner_left all mem
    exact chosen.exists_compiled within

end Plan

variable {C : Catalog} {limits : Limits} {e e' : Engine} {c : Codec} {name inner : String}
  {fields : List (String × Plan)} {entries : List (String × Codec)}

/-- The records within a coding are coded as in the entries, and the coding itself, if it is that of
a record, is named after it. -/
structure Codec.Linked (limits : Limits) (entries : List (String × Codec)) (c : Codec) : Prop where
  limits_eq : c.limits = limits
  named : ∀ typeName fields, c.plan = .record typeName fields → typeName = c.typeName
  within : ∀ inner fields, c.plan.Nests inner fields →
    (inner, ⟨inner, .record inner fields, limits⟩) ∈ entries

/-- The entries, the oldest first: each has a name of its own, and was made of earlier ones. -/
inductive Codec.Chain (limits : Limits) : List (String × Codec) → Prop

  | nil : Codec.Chain limits []

  | snoc {entries : List (String × Codec)} {c : Codec} : Codec.Chain limits entries →
      c.typeName ∉ entries.map Prod.fst → c.Linked limits entries →
      Codec.Chain limits (entries ++ [(c.typeName, c)])

namespace Codec.Chain

variable {front back : List (String × Codec)} {cache : Cache String Codec}

theorem of_split (h : Codec.Chain limits entries) (split : entries = front ++ (name, c) :: back) :
    c.typeName = name ∧ name ∉ front.map Prod.fst ∧ c.Linked limits front := by
  induction h generalizing back with
  | nil => cases List.append_ne_nil_of_right_ne_nil front (List.cons_ne_nil _ _) split.symm
  | snoc _ apart linked ih =>
    rcases List.eq_nil_or_concat back with rfl | ⟨back, last, rfl⟩
    · obtain ⟨rfl, same⟩ := List.append_inj' split rfl
      cases same
      exact ⟨rfl, apart, linked⟩
    · rw [List.concat_eq_append, ← List.cons_append, ← List.append_assoc] at split
      exact ih (List.append_inj' split rfl).1

theorem exists_split (h : Codec.Chain limits cache.entries) (found : cache.get? name = some c) :
    ∃ front back, cache.entries = front ++ (name, c) :: back ∧
      c.typeName = name ∧ name ∉ front.map Prod.fst ∧ c.Linked limits front := by
  obtain ⟨front, back, split⟩ := List.append_of_mem (Cache.mem_of_get? found)
  exact ⟨front, back, split, h.of_split split⟩

theorem get?_of_mem (h : Codec.Chain limits entries) (mem : (name, c) ∈ entries) :
    Cache.get? ⟨entries⟩ name = some c := by
  obtain ⟨front, back, rfl⟩ := List.append_of_mem mem
  obtain ⟨-, apart, -⟩ := h.of_split rfl
  have others : front.find? (·.1 = name) = none := by
    rw [List.find?_eq_none]
    rintro ⟨other, _⟩ mem same
    exact apart (List.mem_map.mpr ⟨_, mem, by simpa using same⟩)
  rw [Cache.get?, List.find?_append, others, Option.none_or, List.find?_cons_of_pos (by simp)]
  rfl

end Codec.Chain

namespace Engine

theorem Makes.exists_held (h : e.Makes c) (nested : c.plan.Nests inner fields) :
    ∃ name held, e.compiled.get? name = some held ∧
      ReflTransGen Plan.Part (.record inner fields) held.plan := by
  have compiled : ∃ name p, e.plan? name = some p ∧
      ReflTransGen Plan.Part (.record inner fields) p := by
    cases h with
    | record chosen => exact Plan.exists_compiled_ofNode chosen nested
    | root chosen => exact (Plan.choose_iff.mp chosen).exists_compiled nested.to_reflTransGen
  obtain ⟨name, p, found, within⟩ := compiled
  obtain ⟨held, cached, rfl⟩ := plan?_eq_some.mp found
  exact ⟨name, held, cached, within⟩

theorem Makes.named (h : e.Makes c) (new : e.compiled.get? c.typeName = none)
    (record : c.plan = .record inner fields) : inner = c.typeName := by
  cases h with
  | record chosen =>
    obtain ⟨_, _, -, rfl, -⟩ := Plan.ofNode_iff.mp chosen
    cases record
    rfl
  | root chosen =>
    -- The plan of a record would have been found under the name.
    cases Plan.choose_iff.mp chosen with
    | record _ _ _ _ found =>
      obtain ⟨_, cached, -⟩ := plan?_eq_some.mp found
      cases new.symm.trans cached
    | _ => cases record

theorem Makes.limits_eq (h : e.Makes c) : c.limits = e.limits := by
  cases h <;> rfl

theorem Makes.linked (h : e.Makes c) (new : e.compiled.get? c.typeName = none)
    (chain : Codec.Chain e.limits e.compiled.entries) : c.Linked e.limits e.compiled.entries where
  limits_eq := h.limits_eq
  named _ _ := h.named new
  within inner fields nested := by
    obtain ⟨name, ⟨typeName, plan, limits⟩, cached, within⟩ := h.exists_held nested
    obtain ⟨front, back, split, rfl, -, linked⟩ := chain.exists_split cached
    rcases reflTransGen_iff_eq_or_transGen.mp within with rfl | nested
    · obtain rfl := linked.named _ _ rfl
      obtain rfl := linked.limits_eq
      exact Cache.mem_of_get? cached
    · rw [split]
      exact List.mem_append_left _ (linked.within inner fields nested)

/-- Step: a single change leaves a chain of entries behind. -/
theorem chain_write (write : e.Write e') (chain : Codec.Chain e.limits e.compiled.entries) :
    Codec.Chain e'.limits e'.compiled.entries := by
  cases write with
  | @compiled c made =>
    change Codec.Chain e.limits (e.compiled.add c.typeName c).entries
    unfold Cache.add
    split
    · exact chain
    · next missing =>
      have new : e.compiled.get? c.typeName = none := by simpa [Cache.contains] using missing
      refine chain.snoc (fun mem => ?_) (made.linked new chain)
      obtain ⟨⟨_, held⟩, mem, rfl⟩ := List.mem_map.mp mem
      cases new.symm.trans (chain.get?_of_mem mem)
  | _ => exact chain

/-- Run: the entries of a reachable engine are a chain. -/
theorem Reachable.chain (reached : Reachable C limits e) :
    Codec.Chain limits e.compiled.entries := by
  obtain ⟨ops, rfl⟩ := reached
  have chain := after_of_write (I := fun e => Codec.Chain e.limits e.compiled.entries)
    (fun _ _ => chain_write) (e := fresh C limits) .nil ops
  rwa [(grown_after ops _).limits_eq] at chain

/-- The engine codes one record within another, at whatever depth. -/
def Nests (e : Engine) (inner outer : String) : Prop :=
  ∃ c fields, e.compiled.get? outer = some c ∧ c.plan.Nests inner fields

theorem idxOf_lt_of_nests (chain : Codec.Chain limits e.compiled.entries) {outer : String}
    (h : e.Nests inner outer) : (e.compiled.entries.map Prod.fst).idxOf inner <
      (e.compiled.entries.map Prod.fst).idxOf outer := by
  obtain ⟨c, fields, found, nested⟩ := h
  obtain ⟨front, back, split, -, apart, linked⟩ := chain.exists_split found
  have earlier : inner ∈ front.map Prod.fst :=
    List.mem_map_of_mem (f := Prod.fst) (linked.within inner fields nested)
  rw [split, List.map_append, List.idxOf_append_of_mem earlier, List.idxOf_append_of_notMem apart]
  exact Nat.lt_add_right _ (List.idxOf_lt_length_of_mem earlier)

theorem wellFounded_nests (chain : Codec.Chain limits e.compiled.entries) : WellFounded e.Nests :=
  Subrelation.wf (idxOf_lt_of_nests chain) (measure (e.compiled.entries.map Prod.fst).idxOf).wf

/-- In every reachable engine, a coding is held under its own name. Any record within it, at any
depth, is coded by the very coding held under the name of this record, whose entry is older. Entries
keep their places with every change. So there is no way inwards from a record back to itself, and
every one comes to an end. -/
theorem holds_nested_records (reached : Reachable C limits e) :
    (∀ name c, e.compiled.get? name = some c → c.typeName = name ∧
      (∀ typeName fields, c.plan = .record typeName fields → typeName = name) ∧
      ∃ front back, e.compiled.entries = front ++ (name, c) :: back ∧
        name ∉ front.map Prod.fst ∧
        ∀ inner fields, c.plan.Nests inner fields → ∃ held, held.plan = .record inner fields ∧
          held.limits = c.limits ∧ e.compiled.get? inner = some held ∧ (inner, held) ∈ front) ∧
    (∀ e', Writes e e' → e.compiled.Extends e'.compiled) ∧
    WellFounded e.Nests ∧ ∀ name, ¬ TransGen e.Nests name name := by
  have chain := reached.chain
  have grounded := wellFounded_nests chain
  have acyclic : ∀ name, ¬ TransGen e.Nests name name := by
    intro name
    induction name using grounded.transGen.induction with
    | _ name ih => exact fun cycle => ih name cycle cycle
  refine ⟨?_, fun e' writes => (Writes.grown writes).compiled, grounded, acyclic⟩
  intro name c found
  obtain ⟨front, back, split, rfl, apart, linked⟩ := chain.exists_split found
  refine ⟨rfl, linked.named, front, back, split, apart, fun inner fields nested => ?_⟩
  have earlier := linked.within inner fields nested
  have held : (inner, ⟨inner, .record inner fields, limits⟩) ∈ e.compiled.entries := by
    rw [split]
    exact List.mem_append_left _ earlier
  exact ⟨_, rfl, linked.limits_eq.symm, chain.get?_of_mem held, earlier⟩

/-- A list of records that hold others, after a call that failed once it had compiled the innermost
one. -/
theorem holds_nested_records_list : ∃ e c,
    Reachable ⟨fun _ => ⟨[], true, .declared⟩, 0⟩ .standard e ∧ e.compiled.get? "P[]" = some c ∧
    (∃ fields held, c.plan.Nests "R" fields ∧ held.plan = .record "R" fields ∧
      e.compiled.get? "R" = some held) ∧
    ¬ TransGen e.Nests "R" "R" := by
  let inner : Node := .mk none "R" [.member "code" "i32"]
  let failing : Schema := ⟨"S", 0, [inner, .mk none "S" [.member "lost" "Missing"]]⟩
  let schema : Schema := ⟨"P[]", 0, [inner, .mk none "Q" [.member "items" "R[]"],
    .mk none "P" [.member "first" "Q", .member "last" "R"]]⟩
  let e := after [.codecOfSchema failing, .codecOfSchema schema]
    (fresh ⟨fun _ => ⟨[], true, .declared⟩, 0⟩ .standard)
  let r : Plan := .record "R" [("code", .scalar .int32)]
  let q : Plan := .record "Q" [("items", .elements r)]
  let p : Plan := .record "P" [("first", q), ("last", r)]
  have planned : e.plan? "P[]" = some (.elements p) := by decide +kernel
  obtain ⟨typeName, found⟩ := Reachable.exists_codec (e := e) ⟨_, rfl⟩ planned
  have items : Plan.Part ("items", Plan.elements r).2 q := .member (List.mem_singleton_self _)
  have first : Plan.Part ("first", q).2 p := .member List.mem_cons_self
  have nested : (Plan.elements p).Nests "R" [("code", .scalar .int32)] :=
    (((TransGen.single .element).tail items).tail first).tail .element
  obtain ⟨held, -, -, acyclic⟩ := holds_nested_records (e := e) ⟨_, rfl⟩
  obtain ⟨-, -, front, back, -, -, within⟩ := held "P[]" _ found
  obtain ⟨held, plan, -, cached, -⟩ := within "R" _ nested
  exact ⟨e, _, ⟨_, rfl⟩, found, ⟨_, held, nested, plan, cached⟩, acyclic "R"⟩

end Engine

end SchemaCodec
