import SchemaCodec.Proofs.Schema.Interpretation

/-! # Plans that do what a schema means

For each form of plan, the names that it stands for. The shortcut for runs of scalars is covered by
a lemma of its own.
-/

namespace SchemaCodec.Schema

variable {S : Schema} {limits : Limits} {t : String} {k : Scalar}

theorem simulates_scalar (hS : Distinct S) (spelled : Primitive.ofSpelling? t = some (.scalar k)) :
    Simulates S limits t (.scalar k) := by
  constructor
  · intro v bytes
    rw [Plan.yields_scalar]
    constructor
    · intro h
      rcases h.cases_on_name with ⟨l, x, spelled', rfl, rfl⟩ | ⟨s, spelled', -⟩ |
        ⟨u, items, rest, rfl, -⟩ | ⟨node, other, values, rfl, mem, -⟩
      · obtain ⟨⟩ := spelled.symm.trans spelled'
        exact ⟨x, rfl, rfl⟩
      · cases spelled.symm.trans spelled'
      · cases spelled.symm.trans (TypeName.ofSpelling?_array u)
      · exact absurd spelled (hS.not_spelled mem)
    · rintro ⟨x, rfl, rfl⟩
      exact .scalar x spelled
  · intro piece v
    rw [Plan.Reads]
    constructor
    · intro h
      rcases h.cases_on_name with ⟨l, x, spelled', rfl, read⟩ | ⟨s, _, _, spelled', -⟩ |
        ⟨u, _, _, _, _, rfl, -⟩ | ⟨u, _, _, _, rfl, -⟩ | ⟨node, _, rfl, mem, -⟩
      · obtain ⟨⟩ := spelled.symm.trans spelled'
        exact ⟨x, rfl, read⟩
      · cases spelled.symm.trans spelled'
      · cases spelled.symm.trans (TypeName.ofSpelling?_array u)
      · cases spelled.symm.trans (TypeName.ofSpelling?_array u)
      · exact absurd spelled (hS.not_spelled mem)
    · rintro ⟨x, rfl, read⟩
      exact .scalar spelled read

theorem simulates_text (hS : Distinct S) (spelled : Primitive.ofSpelling? t = some .string) :
    Simulates S limits t .text := by
  constructor
  · intro v bytes
    rw [Plan.yields_text]
    constructor
    · intro h
      rcases h.cases_on_name with ⟨l, x, spelled', -⟩ | ⟨s, -, rfl, small, rfl⟩ |
        ⟨u, items, rest, rfl, -⟩ | ⟨node, other, values, rfl, mem, -⟩
      · cases spelled.symm.trans spelled'
      · exact ⟨s, rfl, small, rfl⟩
      · cases spelled.symm.trans (TypeName.ofSpelling?_array u)
      · exact absurd spelled (hS.not_spelled mem)
    · rintro ⟨s, rfl, small, rfl⟩
      exact .text spelled small
  · intro piece v
    rw [Plan.Reads]
    constructor
    · intro h
      rcases h.cases_on_name with ⟨l, x, spelled', -⟩ | ⟨s, front, bytes, -, rfl, rfl, count, read⟩ |
        ⟨u, _, _, _, _, rfl, -⟩ | ⟨u, _, _, _, rfl, -⟩ | ⟨node, _, rfl, mem, -⟩
      · cases spelled.symm.trans spelled'
      · exact ⟨s, front, bytes, rfl, rfl, count, read⟩
      · cases spelled.symm.trans (TypeName.ofSpelling?_array u)
      · cases spelled.symm.trans (TypeName.ofSpelling?_array u)
      · exact absurd spelled (hS.not_spelled mem)
    · rintro ⟨s, front, bytes, rfl, rfl, count, read⟩
      exact .text spelled count read

/-! ## Sequences -/

theorem written_array_iff (hS : Distinct S) {v : Value} {bytes : List UInt8} :
    Written S (TypeName.array t) v bytes ↔ ∃ items rest, Items t v items ∧
      items.length ≤ maxCount ∧ WrittenAll S t items rest ∧
      bytes = LittleEndian.split countSize items.length ++ rest := by
  constructor
  · intro h
    rcases h.cases_on_name with ⟨l, x, spelled, -⟩ | ⟨s, spelled, -⟩ |
      ⟨u, items, rest, same, forms, small, all, rfl⟩ | ⟨node, other, values, same, mem, -⟩
    · cases (TypeName.ofSpelling?_array t).symm.trans spelled
    · cases (TypeName.ofSpelling?_array t).symm.trans spelled
    · obtain rfl := array_inj same
      exact ⟨items, rest, forms, small, all, rfl⟩
    · exact absurd same.symm (hS.not_array mem t)
  · rintro ⟨items, rest, forms, small, all, rfl⟩
    exact .sequence forms small all

theorem writtenAll_iff {plan : Plan} (sim : Simulates S limits t plan) {items : List Value}
    {bytes : List UInt8} :
    WrittenAll S t items bytes ↔ (Emission.each plan.emit items).Yields bytes := by
  induction items generalizing bytes with
  | nil =>
    rw [Emission.each, Emission.yields_empty]
    constructor
    · intro h
      cases h
      rfl
    · rintro rfl
      exact .nil
  | cons v others ih =>
    rw [Emission.each, Emission.yields_append]
    constructor
    · intro h
      cases h with
      | cons head tail => exact ⟨_, _, (sim.written _ _).mp head, ih.mp tail, rfl⟩
    · rintro ⟨front, back, head, tail, rfl⟩
      exact .cons ((sim.written _ _).mpr head) (ih.mpr tail)

theorem readAll_iff {plan : Plan} (sim : Simulates S limits t plan) {items : List Value}
    {bytes : List UInt8} : ReadAll S limits t bytes items ↔
      ∃ pieces, bytes = pieces.flatten ∧ List.Forall₂ (Plan.Reads limits plan) pieces items := by
  induction items generalizing bytes with
  | nil =>
    constructor
    · intro h
      cases h
      exact ⟨[], rfl, .nil⟩
    · rintro ⟨pieces, rfl, all⟩
      cases all
      exact .nil
  | cons v others ih =>
    constructor
    · intro h
      cases h with
      | cons head tail =>
        obtain ⟨pieces, rfl, all⟩ := ih.mp tail
        exact ⟨_ :: pieces, rfl, .cons ((sim.read _ _).mp head) all⟩
    · rintro ⟨_, rfl, all⟩
      cases all with
      | cons head all => exact .cons ((sim.read _ _).mpr head) (ih.mpr ⟨_, rfl, all⟩)

/-- A run of scalars is coded in one piece as it would be one by one. -/
theorem simulates_bulk (hS : Distinct S) (spelled : Primitive.ofSpelling? t = some (.scalar k)) :
    Simulates S limits (TypeName.array t) (.bulk k) := by
  have one_by_one : ∀ items bytes, WrittenAll S t items bytes ↔
      ∃ xs, items = Value.scalars k xs ∧ bytes = k.runBytes xs := by
    intro items bytes
    have emit_eq : (Plan.scalar k).emit = Plan.emitScalar k := by funext v; rw [Plan.emit]
    have sim : Simulates S limits t (.scalar k) := simulates_scalar hS spelled
    rw [writtenAll_iff sim, emit_eq]
    exact Plan.yields_each_scalar
  constructor
  · intro v bytes
    rw [written_array_iff hS, Plan.yields_bulk]
    constructor
    · rintro ⟨items, rest, forms, small, all, rfl⟩
      obtain ⟨xs, same, rfl⟩ := (one_by_one _ _).mp all
      cases forms with
      | list =>
        subst same
        rw [Value.scalars, List.length_map] at small ⊢
        exact ⟨xs, .inr rfl, small, rfl⟩
      | @array l ys kinds =>
        obtain rfl := kinds k spelled
        have inj : Function.Injective (Value.scalar k) := fun _ _ h => by
          cases h
          rfl
        obtain rfl := List.map_injective_iff.mpr inj same
        rw [Value.scalars, List.length_map] at small ⊢
        exact ⟨ys, .inl rfl, small, rfl⟩
    · rintro ⟨xs, forms, small, rfl⟩
      refine ⟨Value.scalars k xs, k.runBytes xs, ?_, ?_, (one_by_one _ _).mpr ⟨xs, rfl, rfl⟩, ?_⟩
      · rcases forms with rfl | rfl
        · refine .array xs fun l spelled' => ?_
          obtain ⟨⟩ := spelled.symm.trans spelled'
          rfl
        · exact .list _
      · rwa [Value.scalars, List.length_map]
      · rw [Value.scalars, List.length_map]
  · intro piece v
    rw [Plan.Reads]
    constructor
    · intro h
      rcases h.cases_on_name with ⟨l, x, spelled', -⟩ | ⟨s, _, _, spelled', -⟩ |
        ⟨u, l, xs, front, pieces, same, spelled', rfl, rfl, count, all⟩ |
        ⟨u, _, _, _, same, other, -⟩ | ⟨node, _, same, mem, -⟩
      · cases (TypeName.ofSpelling?_array t).symm.trans spelled'
      · cases (TypeName.ofSpelling?_array t).symm.trans spelled'
      · obtain rfl := array_inj same
        obtain ⟨⟩ := spelled.symm.trans spelled'
        exact ⟨xs, front, pieces, rfl, rfl, count, all⟩
      · obtain rfl := array_inj same
        exact absurd spelled (other k)
      · exact absurd same.symm (hS.not_array mem t)
    · rintro ⟨xs, front, pieces, rfl, rfl, count, all⟩
      exact .array spelled count all

theorem simulates_elements (hS : Distinct S) {plan : Plan}
    (other : ∀ k, Primitive.ofSpelling? t ≠ some (.scalar k)) (sim : Simulates S limits t plan) :
    Simulates S limits (TypeName.array t) (.elements plan) := by
  constructor
  · intro v bytes
    rw [written_array_iff hS, Plan.yields_elements]
    constructor
    · rintro ⟨items, rest, forms, small, all, rfl⟩
      obtain ⟨pieces, each, rfl⟩ := Emission.yields_each.mp ((writtenAll_iff sim).mp all)
      refine ⟨items, pieces, ?_, small, each, rfl⟩
      cases forms <;> rfl
    · rintro ⟨items, pieces, found, small, each, rfl⟩
      refine ⟨items, pieces.flatten, ?_, small,
        (writtenAll_iff sim).mpr (Emission.yields_each.mpr ⟨pieces, each, rfl⟩), rfl⟩
      cases v with
      | array k xs =>
        obtain rfl := Option.some.inj found
        exact .array xs fun l spelled => absurd spelled (other l)
      | list items =>
        obtain rfl := Option.some.inj found
        exact .list _
      | scalar k x => cases found
      | text s => cases found
      | record typeName fields => cases found
  · intro piece v
    rw [Plan.Reads]
    constructor
    · intro h
      rcases h.cases_on_name with ⟨l, x, spelled', -⟩ | ⟨s, _, _, spelled', -⟩ |
        ⟨u, l, _, _, _, same, spelled', -⟩ |
        ⟨u, items, front, bytes, same, -, rfl, rfl, count, all⟩ | ⟨node, _, same, mem, -⟩
      · cases (TypeName.ofSpelling?_array t).symm.trans spelled'
      · cases (TypeName.ofSpelling?_array t).symm.trans spelled'
      · obtain rfl := array_inj same
        exact absurd spelled' (other l)
      · obtain rfl := array_inj same
        obtain ⟨pieces, rfl, each⟩ := (readAll_iff sim).mp all
        exact ⟨items, front, pieces, rfl, rfl, count, each⟩
      · exact absurd same.symm (hS.not_array mem t)
    · rintro ⟨items, front, pieces, rfl, rfl, count, each⟩
      exact .list other count ((readAll_iff sim).mpr ⟨pieces, rfl, each⟩)

/-! ## Records -/

def SimulatesChild (S : Schema) (limits : Limits) (child : Node) (field : String × Plan) : Prop :=
  child.name = some field.1 ∧ Simulates S limits child.typeName field.2

theorem writtenMembers_iff {children : List Node} {fields : List (String × Plan)}
    (sims : List.Forall₂ (SimulatesChild S limits) children fields) (typeName : String)
    {values : List (String × Value)} {bytes : List UInt8} :
    WrittenMembers S children values bytes ↔
      (Plan.emitFields typeName fields values).Yields bytes := by
  induction sims generalizing bytes with
  | nil =>
    rw [Plan.emitFields, Emission.yields_empty]
    constructor
    · intro h
      cases h
      rfl
    · rintro rfl
      exact .nil
  | @cons child field children fields sim _ ih =>
    obtain ⟨name, plan⟩ := field
    obtain ⟨named, sim⟩ := sim
    rw [Plan.emitFields]
    constructor
    · intro h
      cases h with
      | cons named' found head tail =>
        obtain rfl := Option.some.inj (named.symm.trans named')
        rw [found]
        exact Emission.yields_append.mpr ⟨_, _, (sim.written _ _).mp head, ih.mp tail, rfl⟩
    · intro h
      split at h
      · next v found =>
        obtain ⟨front, back, head, tail, rfl⟩ := Emission.yields_append.mp h
        exact .cons named found ((sim.written _ _).mpr head) (ih.mpr tail)
      · exact absurd h Emission.not_yields_fail

theorem readMembers_iff {children : List Node} {fields : List (String × Plan)}
    (sims : List.Forall₂ (SimulatesChild S limits) children fields) {bytes : List UInt8}
    {values : List (String × Value)} :
    ReadMembers S limits children bytes values ↔ Plan.ReadsFields limits fields bytes values := by
  induction sims generalizing bytes values with
  | nil =>
    rw [Plan.ReadsFields]
    constructor
    · intro h
      cases h
      exact ⟨rfl, rfl⟩
    · rintro ⟨rfl, rfl⟩
      exact .nil
  | @cons child field children fields sim _ ih =>
    obtain ⟨name, plan⟩ := field
    obtain ⟨named, sim⟩ := sim
    rw [Plan.ReadsFields]
    constructor
    · intro h
      cases h with
      | cons named' head tail =>
        obtain rfl := Option.some.inj (named.symm.trans named')
        exact ⟨_, _, _, _, rfl, rfl, (sim.read _ _).mp head, ih.mp tail⟩
    · rintro ⟨front, back, v, others, rfl, rfl, head, tail⟩
      exact .cons named ((sim.read _ _).mpr head) (ih.mpr tail)

theorem simulates_record (hS : Distinct S) {node : Node} (mem : node ∈ S.types)
    {fields : List (String × Plan)}
    (sims : List.Forall₂ (SimulatesChild S limits) node.children fields) :
    Simulates S limits node.typeName (.record node.typeName fields) := by
  constructor
  · intro v bytes
    rw [Plan.yields_record]
    constructor
    · intro h
      rcases h.cases_on_name with ⟨l, x, spelled, -⟩ | ⟨s, spelled, -⟩ |
        ⟨u, _, _, same, -⟩ | ⟨node', other, values, same, mem', rfl, members⟩
      · exact absurd spelled (hS.not_spelled mem)
      · exact absurd spelled (hS.not_spelled mem)
      · exact absurd same (hS.not_array mem u)
      · obtain rfl := hS.node_eq mem mem' same
        exact ⟨other, values, rfl, (writtenMembers_iff sims _).mp members⟩
    · rintro ⟨other, values, rfl, members⟩
      exact .record mem ((writtenMembers_iff sims _).mpr members)
  · intro piece v
    rw [Plan.Reads]
    constructor
    · intro h
      rcases h.cases_on_name with ⟨l, x, spelled, -⟩ | ⟨s, _, _, spelled, -⟩ |
        ⟨u, _, _, _, _, same, -⟩ | ⟨u, _, _, _, same, -⟩ | ⟨node', values, same, mem', rfl, members⟩
      · exact absurd spelled (hS.not_spelled mem)
      · exact absurd spelled (hS.not_spelled mem)
      · exact absurd same (hS.not_array mem u)
      · exact absurd same (hS.not_array mem u)
      · obtain rfl := hS.node_eq mem mem' same
        exact ⟨values, rfl, (readMembers_iff sims).mp members⟩
    · rintro ⟨values, rfl, members⟩
      exact .record mem ((readMembers_iff sims).mpr members)

end SchemaCodec.Schema
