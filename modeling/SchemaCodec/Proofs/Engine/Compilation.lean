import SchemaCodec.Engine.Compilation
import SchemaCodec.Proofs.Action
import SchemaCodec.Proofs.Cache
import SchemaCodec.Proofs.Plan.Choice
import SchemaCodec.Proofs.Schema.Extraction

/-! # How compilation ends

The steps of compilation where nothing is in their way: the type of a node is known, and a plan can
be chosen for it. A schema that is not compiled yet has its nodes compiled, and then its root.
-/

namespace SchemaCodec.Engine

open SchemaCodec.Action

variable {e : Engine} {node : Node} {nodes : List Node} {S : Schema}

theorem ends_resolving {α : Type} {step : Action Registry α} {Q : α → Engine → Prop}
    {R : Error → Engine → Prop} :
    (resolving step).Ends e Q R ↔ step.Ends e.registry (fun x r => Q x { e with registry := r })
      fun err r => R err { e with registry := r } := Iff.rfl

theorem ends_count {f : Counters → Counters} {Q : Unit → Engine → Prop}
    {R : Error → Engine → Prop} :
    (count f).Ends e Q R ↔ Q () { e with counters := f e.counters } := Iff.rfl

def note (e : Engine) (c : Codec) : Engine :=
  { e with compiled := e.compiled.add c.typeName c }

theorem get?_note {c : Codec} (new : e.compiled.get? c.typeName = none) :
    (e.note c).compiled.get? c.typeName = some c := by
  rw [note, Cache.get?_add_self, Cache.getOr, new]
  rfl

theorem plan?_eq_some {name : String} {plan : Plan} :
    e.plan? name = some plan ↔ ∃ c, e.compiled.get? name = some c ∧ c.plan = plan :=
  Option.map_eq_some_iff

theorem ends_keep {c : Codec} {Q : Codec → Engine → Prop} {R : Error → Engine → Prop}
    (new : e.compiled.get? c.typeName = none) : (keep c).Ends e Q R ↔ Q c (e.note c) := by
  unfold keep
  rw [ends_bind, ends_get, ends_bind, ends_modify, Cache.getOr, new]
  rfl

theorem ends_compileNodes_known {Q : Unit → Engine → Prop} {R : Error → Engine → Prop} {c : Codec}
    (known : e.compiled.get? node.typeName = some c) :
    (compileNodes (node :: nodes)).Ends e Q R ↔ (compileNodes nodes).Ends e Q R := by
  rw [compileNodes, ends_bind, ends_get, if_pos (Cache.contains_iff.mpr ⟨c, known⟩)]

theorem ends_compileNodes_uncompiled {Q : Unit → Engine → Prop} {R : Error → Engine → Prop}
    (new : e.compiled.get? node.typeName = none) :
    (compileNodes (node :: nodes)).Ends e Q R ↔
      (Registry.resolveNode node).Ends e.registry
        (fun d r => (∀ plan, Plan.ofNode e.plan? e.catalog node d = .ok plan →
            (compileNodes nodes).Ends
              (note { e with registry := r } ⟨node.typeName, plan, e.limits⟩) Q R) ∧
          ∀ err, Plan.ofNode e.plan? e.catalog node d = .error err →
            R err { e with registry := r })
        fun err r => R err { e with registry := r } := by
  have rest : ∀ r plan,
      (do Action.report (.compiled node.typeName node.children.length)
          let _ ← keep ⟨node.typeName, plan, e.limits⟩
          compileNodes nodes : Action Engine Unit).Ends { e with registry := r } Q R ↔
        (compileNodes nodes).Ends
          (note { e with registry := r } ⟨node.typeName, plan, e.limits⟩) Q R := by
    intro r plan
    rw [ends_bind, ends_report, ends_bind, ends_keep new]
  rw [compileNodes, ends_bind, ends_get, if_neg]
  · rw [ends_bind, resolveNode, ends_resolving]
    constructor
    · intro h
      refine h.mono (fun d r hd => ?_) fun _ _ failed => failed
      rw [ends_bind, ends_get, ends_bind, ends_ofExcept] at hd
      exact ⟨fun plan chosen => (rest r plan).mp (hd.1 plan chosen), hd.2⟩
    · intro h
      refine h.mono (fun d r hd => ?_) fun _ _ failed => failed
      rw [ends_bind, ends_get, ends_bind, ends_ofExcept]
      exact ⟨fun plan chosen => (rest r plan).mpr (hd.1 plan chosen), hd.2⟩
  · rw [Cache.contains, new]
    exact Bool.false_ne_true

theorem ends_compileNodes_new {Q : Unit → Engine → Prop} {R : Error → Engine → Prop}
    (new : e.compiled.get? node.typeName = none)
    (h : (Registry.resolveNode node).Ends e.registry
      (fun d r => ∃ plan, Plan.ofNode e.plan? e.catalog node d = .ok plan ∧
        (compileNodes nodes).Ends
          (note { e with registry := r } ⟨node.typeName, plan, e.limits⟩) Q R)
      fun err r => R err { e with registry := r }) :
    (compileNodes (node :: nodes)).Ends e Q R := by
  rw [ends_compileNodes_uncompiled new]
  refine h.mono ?_ fun _ _ failed => failed
  rintro d r ⟨plan, chosen, rest⟩
  refine ⟨fun other same => ?_, fun err failed => ?_⟩
  · obtain rfl := Except.ok.inj (chosen.symm.trans same)
    exact rest
  · cases chosen.symm.trans failed

theorem ends_compileNodes_refused {Q : Unit → Engine → Prop} {R : Error → Engine → Prop}
    (new : e.compiled.get? node.typeName = none)
    (h : (Registry.resolveNode node).Ends e.registry
      (fun d r => ∃ err, Plan.ofNode e.plan? e.catalog node d = .error err ∧
        R err { e with registry := r })
      fun err r => R err { e with registry := r }) :
    (compileNodes (node :: nodes)).Ends e Q R := by
  rw [ends_compileNodes_uncompiled new]
  refine h.mono ?_ fun _ _ failed => failed
  rintro d r ⟨err, failed, refused⟩
  refine ⟨fun plan chosen => ?_, fun other same => ?_⟩
  · cases failed.symm.trans chosen
  · obtain rfl := Except.error.inj (failed.symm.trans same)
    exact refused

/-- Entries that are listed after their needs are compiled if each is compiled where its needs are. -/
theorem ends_compileNodes_inOrder {I : Engine → Prop} {listed rest : List Ordering.Entry}
    (order : Ordering.InOrder listed rest)
    (step : ∀ en ∈ rest, ∀ e, I e → (∀ need ∈ en.needs, ∃ plan, e.plan? need = some plan) →
      (Registry.resolveNode en.node).Ends e.registry
        (fun d r => ∃ plan, Plan.ofNode e.plan? e.catalog en.node d = .ok plan ∧
          I (note { e with registry := r } ⟨en.node.typeName, plan, e.limits⟩))
        fun _ _ => False)
    (h : I e) (done : ∀ en ∈ listed, ∃ plan, e.plan? en.name = some plan) :
    (compileNodes (rest.map (·.node))).Ends e
      (fun _ e' => I e' ∧ ∀ en ∈ listed ++ rest, ∃ plan, e'.plan? en.name = some plan)
      fun _ _ => False := by
  induction rest generalizing listed e with
  | nil =>
    rw [List.append_nil]
    exact ⟨h, done⟩
  | cons en rest ih =>
    obtain ⟨ready, order⟩ := order
    have later := fun en hen => step en (List.mem_cons_of_mem _ hen)
    rw [List.map_cons, List.append_cons]
    cases found : e.compiled.get? en.node.typeName with
    | some c =>
      rw [ends_compileNodes_known found]
      refine ih order later h fun other hother => ?_
      rcases List.mem_append.mp hother with old | last
      · exact done other old
      · obtain rfl := List.mem_singleton.mp last
        exact ⟨c.plan, plan?_eq_some.mpr ⟨c, found, rfl⟩⟩
    | none =>
      have needs : ∀ need ∈ en.needs, ∃ plan, e.plan? need = some plan := by
        intro need needed
        obtain ⟨other, hother, same⟩ := Ordering.Entry.ready_iff.mp ready need needed
        exact same ▸ done other hother
      apply ends_compileNodes_new found
      refine (step en List.mem_cons_self e h needs).mono ?_ fun _ _ no => no.elim
      rintro d registry ⟨plan, chosen, kept⟩
      refine ⟨plan, chosen, ih order later kept fun other hother => ?_⟩
      rcases List.mem_append.mp hother with old | last
      · obtain ⟨plan', known⟩ := done other old
        obtain ⟨c, hc, same⟩ := plan?_eq_some.mp known
        exact ⟨plan', plan?_eq_some.mpr ⟨c, Cache.get?_add_of_some hc _ _, same⟩⟩
      · obtain rfl := List.mem_singleton.mp last
        exact ⟨plan, plan?_eq_some.mpr ⟨_, get?_note (e := { e with registry := registry })
          (c := ⟨other.node.typeName, plan, e.limits⟩) found, rfl⟩⟩

theorem ends_compileRoot_new {name : String} {d : Descriptor} {plan : Plan}
    {Q : Codec → Engine → Prop} {R : Error → Engine → Prop}
    (new : e.compiled.get? name = none) (chosen : Plan.Chosen e.plan? d name plan) :
    (compileRoot name d).Ends e Q R ↔ Q ⟨name, plan, e.limits⟩ (e.note ⟨name, plan, e.limits⟩) := by
  have plan_eq : Plan.choose e.plan? name d name = .ok plan := Plan.choose_iff.mpr chosen
  unfold compileRoot
  rw [ends_bind, ends_get, plan_eq]
  exact ends_keep (R := R) new

/-! ## Schemas -/

/-- The coding of a root that is a record but not listed, from the schema extracted for it. -/
def codecOfRecord (name : String) (d : Descriptor) : Action Engine Codec := do
  let full ← extract d
  match full.root? with
  | none => Action.fail (.typeNotFound name)
  | some _ => compileWithin 0 full (some d)

/-- The coding of the root once the nodes of the schema are compiled. -/
def codecOfRoot (S : Schema) : Action Engine Codec := do
  let e ← Action.get
  match e.compiled.get? S.typeName with
  | some codec => return codec
  | none =>
    let d ← resolve S.typeName
    if d.isRecord then codecOfRecord S.typeName d else compileRoot S.typeName d

theorem ends_codecOfSchema_known {c : Codec} {Q : Codec → Engine → Prop} {R : Error → Engine → Prop}
    (known : e.compiled.get? S.typeName = some c) : (codecOfSchema S).Ends e Q R ↔
      Q c { e with counters := { e.counters with compileHits := e.counters.compileHits + 1 } } := by
  unfold codecOfSchema
  rw [ends_bind, ends_get, known]
  exact Iff.rfl

theorem ends_codecOfSchema_new {Q : Codec → Engine → Prop} {R : Error → Engine → Prop}
    (new : e.compiled.get? S.typeName = none) :
    (codecOfSchema S).Ends e Q R ↔ (compileNodes S.types).Ends
      { e with counters := { e.counters with compileMisses := e.counters.compileMisses + 1 } }
      (fun _ e' => (codecOfRoot S).Ends e' Q R) R := by
  unfold codecOfSchema
  rw [ends_bind, ends_get, new]
  dsimp only
  rw [ends_bind, ends_count]
  exact ends_bind

end SchemaCodec.Engine
