import SchemaCodec.Proofs.Registry.Denotation

/-! # Registries in use

A registry that is filled by declarations and generic definitions, and resolves names in between,
notes under every name what the name denotes, and still denotes in the end.
-/

namespace SchemaCodec.Registry

open SchemaCodec.Action SchemaCodec.TypeName

variable {r s : Registry} {name : String} {d : Descriptor}

/-- A call to a registry. -/
inductive Call
  | declare (d : Descriptor)
  | declareGeneric (g : Generic)
  | resolve (name : String)

def Call.apply (r : Registry) : Call → Registry
  | declare d => (Registry.declare d r).state
  | declareGeneric g => (Registry.declareGeneric g r).state
  | resolve name => (Registry.resolve name r).state

def afterCalls (calls : List Call) : Registry := calls.foldl Call.apply empty

/-- The calls declare only types with well-formed names that have no arguments, and define no
generic type twice. -/
structure Filling (calls : List Call) : Prop where
  wellFormed : ∀ d, .declare d ∈ calls → WellFormed d.name ∧ '<' ∉ d.name.toList
  single : ∀ g g', .declareGeneric g ∈ calls → .declareGeneric g' ∈ calls → g.base = g'.base →
    g = g'

variable {calls : List Call}

theorem filling_nil : Filling [] :=
  ⟨fun _ no => absurd no List.not_mem_nil, fun _ _ no => absurd no List.not_mem_nil⟩

theorem Filling.declare (h : Filling calls)
    (wellFormed : WellFormed d.name ∧ '<' ∉ d.name.toList) : Filling (.declare d :: calls) := by
  refine ⟨fun d' mem => ?_, fun g g' mem mem' => ?_⟩
  · rcases List.mem_cons.mp mem with same | mem
    · obtain rfl := Call.declare.inj same
      exact wellFormed
    · exact h.wellFormed d' mem
  · simp only [List.mem_cons, reduceCtorEq, false_or] at mem mem'
    exact h.single g g' mem mem'

theorem Filling.declareGeneric (h : Filling calls) {g : Generic}
    (fresh : ∀ g', .declareGeneric g' ∈ calls → g'.base ≠ g.base) :
    Filling (.declareGeneric g :: calls) := by
  refine ⟨fun d mem => ?_, fun first second mem mem' same => ?_⟩
  · simp only [List.mem_cons, reduceCtorEq, false_or] at mem
    exact h.wellFormed d mem
  · have given : ∀ {g'}, .declareGeneric g' ∈ Call.declareGeneric g :: calls →
        g' = g ∨ .declareGeneric g' ∈ calls := by simp
    rcases given mem with rfl | earlier
    · rcases given mem' with rfl | held
      · rfl
      · exact absurd same.symm (fresh second held)
    · rcases given mem' with rfl | held
      · exact absurd same (fresh first earlier)
      · exact h.single first second earlier held same

theorem Filling.resolve (h : Filling calls) (name : String) : Filling (.resolve name :: calls) := by
  refine ⟨fun d mem => ?_, fun g g' mem mem' => ?_⟩
  · simp only [List.mem_cons, reduceCtorEq, false_or] at mem
    exact h.wellFormed d mem
  · simp only [List.mem_cons, reduceCtorEq, false_or] at mem mem'
    exact h.single g g' mem mem'

/-- What the registry holds comes from the calls, and it notes under a name what the name
denotes. -/
structure Filled (calls : List Call) (r : Registry) : Prop where
  tame : r.Tame
  given : ∀ base g, r.generics.get? base = some g → .declareGeneric g ∈ calls
  recalls : r.Recalls r

theorem Recalls.more (h : r.Recalls r) (more : r.Within s) (same : s.resolved = r.resolved) :
    s.Recalls s :=
  ⟨rfl, rfl, fun name d noted => (h.resolved name d (same ▸ noted)).mono more⟩

theorem Filled.declare (h : Filled calls r) (d : Descriptor)
    (wellFormed : WellFormed d.name ∧ '<' ∉ d.name.toList) :
    Filled calls (Registry.declare d r).state ∧ r.Within (Registry.declare d r).state := by
  have more : r.Within { r with declared := r.declared.add d.name d } :=
    ⟨fun name d' known => Cache.get?_add_of_some known d.name d, fun _ _ known => known⟩
  have ends : (Registry.declare d).Ends r (fun _ r' => Filled calls r' ∧ r.Within r')
      fun _ _ => False := by
    unfold Registry.declare
    rw [ends_bind, ends_get]
    split
    · rw [ends_bind, ends_report, ends_modify]
      refine ⟨⟨⟨fun name d' known => ?_, h.tame.generics⟩, h.given, h.recalls.more more rfl⟩, more⟩
      rcases Cache.get?_add_eq_some known with held | ⟨-, rfl, rfl⟩
      · exact h.tame.declared name d' held
      · exact ⟨rfl, wellFormed.1.foreign, wellFormed.2⟩
    · exact ⟨h, within_refl r⟩
  exact ends.state (fun _ _ filled => filled) fun _ _ no => no.elim

theorem Filled.declareGeneric (h : Filled calls r) (filling : Filling calls) (g : Generic)
    (mem : .declareGeneric g ∈ calls) :
    Filled calls (Registry.declareGeneric g r).state ∧
      r.Within (Registry.declareGeneric g r).state := by
  have put : (Registry.declareGeneric g r).state = { r with generics := r.generics.put g.base g } :=
    rfl
  have held : ∀ base g', (r.generics.put g.base g).get? base = some g' →
      r.generics.get? base = some g' ∨ base = g.base ∧ g' = g := by
    intro base g' known
    by_cases same : base = g.base
    · rw [same, Cache.get?_put_self] at known
      exact .inr ⟨same, (Option.some.inj known).symm⟩
    · rw [Cache.get?_put_of_ne same] at known
      exact .inl known
  have more : r.Within { r with generics := r.generics.put g.base g } := by
    refine ⟨fun _ _ known => known, fun base g' known => ?_⟩
    show (r.generics.put g.base g).get? base = some g'
    by_cases same : base = g.base
    · have named := (h.tame.generics base g' known).trans same
      rw [same, Cache.get?_put_self, filling.single g g' mem (h.given base g' known) named.symm]
    · rwa [Cache.get?_put_of_ne same]
  rw [put]
  refine ⟨⟨⟨h.tame.declared, fun base g' known => ?_⟩, fun base g' known => ?_,
    h.recalls.more more rfl⟩, more⟩
  · rcases held base g' known with before | ⟨rfl, rfl⟩
    · exact h.tame.generics base g' before
    · rfl
  · rcases held base g' known with before | ⟨-, rfl⟩
    · exact h.given base g' before
    · exact mem

theorem Filled.resolve (h : Filled calls r) (name : String) :
    Filled calls (Registry.resolve name r).state ∧ r.Within (Registry.resolve name r).state := by
  have kept := (keeps_resolve name).state h.recalls
  have more : r.Within (Registry.resolve name r).state :=
    ⟨fun _ _ known => kept.declared ▸ known, fun _ _ known => kept.generics ▸ known⟩
  refine ⟨⟨⟨?_, ?_⟩, ?_, ⟨rfl, rfl, fun name d noted => (kept.resolved name d noted).mono more⟩⟩,
    more⟩
  · rw [kept.declared]
    exact h.tame.declared
  · rw [kept.generics]
    exact h.tame.generics
  · rw [kept.generics]
    exact h.given

theorem Filled.apply (h : Filled calls r) (filling : Filling calls) {call : Call}
    (mem : call ∈ calls) : Filled calls (call.apply r) ∧ r.Within (call.apply r) := by
  cases call with
  | declare d => exact h.declare d (filling.wellFormed d mem)
  | declareGeneric g => exact h.declareGeneric filling g mem
  | resolve name => exact h.resolve name

theorem Filled.run (h : Filled calls r) (filling : Filling calls) {further : List Call}
    (sub : ∀ call ∈ further, call ∈ calls) :
    Filled calls (further.foldl Call.apply r) ∧ r.Within (further.foldl Call.apply r) := by
  induction further generalizing r with
  | nil => exact ⟨h, within_refl r⟩
  | cons call further ih =>
    obtain ⟨filled, more⟩ := h.apply filling (sub call List.mem_cons_self)
    obtain ⟨filled', more'⟩ := ih filled fun c hc => sub c (List.mem_cons_of_mem call hc)
    exact ⟨filled', more.trans more'⟩

theorem filled_afterCalls (filling : Filling calls) {before : List Call} (h : before <+: calls) :
    Filled calls (afterCalls before) ∧ (afterCalls before).Within (afterCalls calls) := by
  have start : Filled calls empty := by
    refine ⟨⟨?_, ?_⟩, ?_, rfl, rfl, ?_⟩
    all_goals
      intro _ _ known
      cases known
  obtain ⟨rest, rfl⟩ := h
  obtain ⟨filled, -⟩ := start.run filling fun call mem => List.mem_append_left rest mem
  refine ⟨filled, ?_⟩
  have whole : afterCalls (before ++ rest) = rest.foldl Call.apply (afterCalls before) := by
    rw [afterCalls, List.foldl_append]
    rfl
  rw [whole]
  exact (filled.run filling fun call mem => List.mem_append_right before mem).2

/-- What a name resolves to at any time is what it denotes in the end. -/
theorem denotes_of_resolved (filling : Filling calls) {before : List Call} (h : before <+: calls)
    (resolved : (Registry.resolve name (afterCalls before)).result = .ok d) :
    (afterCalls calls).Denotes name d := by
  obtain ⟨filled, more⟩ := filled_afterCalls filling h
  have denotes := ((keeps_resolve name) _ filled.recalls).of_ok resolved
  exact denotes.2.mono more

end SchemaCodec.Registry
