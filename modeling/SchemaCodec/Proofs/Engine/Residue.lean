import SchemaCodec.Proofs.Engine.Answers
import SchemaCodec.Proofs.Engine.Stability
import SchemaCodec.Proofs.Schema.Reachability

/-! # What a failed compilation leaves behind

Compilation stops at the first type that it cannot compile, and what it did before stays done. So
later calls answer as if the types before that one had been compiled one by one, and its own name
had been resolved. Where nothing of this is new, a failed call leaves no trace.
-/

namespace SchemaCodec

open SchemaCodec.Action

def Node.alone (node : Node) : Schema := ⟨node.typeName, 0, [node]⟩

namespace Action

variable {σ α : Type} {R : σ → σ → Prop} {step : Action σ α} {s s' : σ}

theorem ends_self (step : Action σ α) (s : σ) : step.Ends s
    (fun x t => (step s).result = .ok x ∧ t = (step s).state)
    fun e t => (step s).result = .error e ∧ t = (step s).state := by
  unfold Ends
  split
  · next x result => exact ⟨result, rfl⟩
  · next e result => exact ⟨result, rfl⟩

theorem Blind.ends {Q : α → σ → Prop} {E : Error → σ → Prop} (h : step.Blind R) (related : R s s')
    (ends : step.Ends s' Q E) :
    step.Ends s (fun x t => ∃ t', R t t' ∧ Q x t') fun e t => ∃ t', R t t' ∧ E e t' := by
  obtain ⟨same, related'⟩ := h s s' related
  unfold Ends at ends ⊢
  rw [same]
  split
  · next x result =>
    rw [result] at ends
    exact ⟨_, related', ends⟩
  · next e result =>
    rw [result] at ends
    exact ⟨_, related', ends⟩

end Action

namespace Engine

variable {e e' : Engine} {S : Schema} {node : Node} {nodes : List Node} {d : Descriptor}
  {name : String} {err : Error}

theorem after_append (ops ops' : List Operation) (e : Engine) :
    after (ops ++ ops') e = after ops' (after ops e) :=
  List.foldl_append

/-! ## Nodes one by one -/

def compileEach (nodes : List Node) : List Operation :=
  nodes.map fun node => .codecOfSchema node.alone

/-- Compiled one by one in their order, all of the types are compiled. -/
def EachCompiles : List Node → Engine → Prop
  | [], _ => True
  | node :: nodes, e => (∃ c, (codecOfSchema node.alone e).result = .ok c) ∧
    EachCompiles nodes (codecOfSchema node.alone e).state

theorem ends_compileNodes_cons {Q : Unit → Engine → Prop} {R : Error → Engine → Prop} :
    (compileNodes (node :: nodes)).Ends e Q R ↔
      (compileNodes [node]).Ends e (fun _ e' => (compileNodes nodes).Ends e' Q R) R := by
  rw [compileNodes, compileNodes, ends_bind, ends_bind, ends_get, ends_get]
  split
  · exact Iff.rfl
  · simp only [ends_bind]
    exact Iff.rfl

theorem alike_counted (counters : Counters) (e : Engine) :
    Alike { e with counters := counters } e := ⟨⟨rfl, rfl, rfl⟩, rfl, rfl⟩

theorem ends_alone (node : Node) (e : Engine) : (codecOfSchema node.alone).Ends e
    (fun _ t => (compileNodes [node] e).result = .ok () ∧ Alike (compileNodes [node] e).state t)
    fun err t =>
      (compileNodes [node] e).result = .error err ∧ Alike (compileNodes [node] e).state t := by
  cases known : e.compiled.get? node.typeName with
  | some c =>
    have nothing : (compileNodes [node]).Ends e (fun _ t => t = e) fun _ _ => False :=
      (ends_compileNodes_held (List.forall_mem_singleton.mpr ⟨c, known⟩)).mpr rfl
    obtain ⟨⟨⟩, result, same⟩ := nothing.result
    rw [ends_codecOfSchema_known known, same]
    exact ⟨result, (alike_counted _ e).symm⟩
  | none =>
    rw [ends_codecOfSchema_new known]
    refine (((blind_compileNodes [node]).ends (alike_counted _ e) (ends_self _ e)).and
      (ends_compileNodes_listed [node] _)).mono ?_ ?_
    · rintro ⟨⟩ t ⟨⟨_, alike, result, rfl⟩, listed⟩
      obtain ⟨c, found⟩ := listed node List.mem_cons_self
      unfold codecOfRoot
      rw [ends_bind, ends_get, show t.compiled.get? node.alone.typeName = some c from found]
      exact ⟨result, alike.symm⟩
    · rintro err t ⟨⟨_, alike, result, rfl⟩, -⟩
      exact ⟨result, alike.symm⟩

theorem ends_compileNodes_failed (node : Node) (e : Engine) : (compileNodes [node]).Ends e
    (fun _ _ => True) fun _ t => t = (resolveNode node e).state := by
  rw [compileNodes, ends_bind, ends_get]
  split
  · trivial
  · rw [ends_bind]
    refine (ends_self (resolveNode node) e).mono ?_ fun _ _ h => h.2
    rintro d t ⟨-, rfl⟩
    rw [ends_bind, ends_get, ends_bind, ends_ofExcept]
    exact ⟨fun _ _ => trivial, fun _ _ => rfl⟩

theorem ends_compileNodes_alone (node : Node) (e : Engine) : (compileNodes [node]).Ends e
    (fun _ t => (∃ c, (codecOfSchema node.alone e).result = .ok c) ∧
      Alike t (codecOfSchema node.alone e).state)
    fun err t => (codecOfSchema node.alone e).result = .error err ∧
      t = (resolveNode node e).state := by
  have alone := ends_alone node e
  refine ((ends_self (compileNodes [node]) e).and (ends_compileNodes_failed node e)).mono ?_ ?_
  · rintro ⟨⟩ t ⟨⟨result, rfl⟩, -⟩
    cases compiled : (codecOfSchema node.alone e).result with
    | ok c => exact ⟨⟨c, rfl⟩, (alone.of_ok compiled).2⟩
    | error err => cases result.symm.trans (alone.of_error compiled).1
  · rintro err t ⟨⟨failed, -⟩, state⟩
    refine ⟨?_, state⟩
    cases compiled : (codecOfSchema node.alone e).result with
    | ok c => cases failed.symm.trans (alone.of_ok compiled).1
    | error err' =>
      obtain rfl := Except.error.inj (failed.symm.trans (alone.of_error compiled).1)
      rfl

/-- Compilation of a list ends where the nodes compiled one by one end: all of them, or those before
the first that fails, with its own name resolved. -/
theorem ends_compileNodes_each (nodes : List Node) (e : Engine) : (compileNodes nodes).Ends e
    (fun _ t => EachCompiles nodes e ∧ Alike t (after (compileEach nodes) e))
    fun err t => ∃ before node rest, nodes = before ++ node :: rest ∧ EachCompiles before e ∧
      (codecOfSchema node.alone (after (compileEach before) e)).result = .error err ∧
      Alike t (after (compileEach before ++ [.resolveNode node]) e) := by
  induction nodes generalizing e with
  | nil => exact ⟨trivial, alike_refl e⟩
  | cons node nodes ih =>
    rw [ends_compileNodes_cons]
    refine (ends_compileNodes_alone node e).mono ?_ ?_
    · rintro _ t ⟨compiled, alike⟩
      refine ((blind_compileNodes nodes).ends alike (ih _)).mono ?_ ?_
      · rintro _ u ⟨u', same, each, alike'⟩
        exact ⟨⟨compiled, each⟩, same.trans alike'⟩
      · rintro err u ⟨u', same, before, failing, rest, rfl, each, failed, alike'⟩
        exact ⟨node :: before, failing, rest, rfl, ⟨compiled, each⟩, failed, same.trans alike'⟩
    · rintro err _ ⟨failed, rfl⟩
      exact ⟨[], node, nodes, rfl, trivial, failed, alike_refl _⟩

/-! ## Schemas -/

/-- The listed types compile one by one, and the root is not among them. -/
structure LacksRoot (S : Schema) (e : Engine) : Prop where
  each : EachCompiles S.types e
  missing : (after (compileEach S.types) e).compiled.get? S.typeName = none

/-- What compilation of a schema gets done before it fails with an error, as calls of their own, the
last of which has the error or leads to it: listed types are compiled and the name of the one that
fails is resolved; or the name of a root that is not listed is resolved, its schema is extracted if
it is a record, and that of its types are compiled. -/
inductive GivesUp (S : Schema) (e : Engine) : Error → List Operation → Prop

  | listed {before : List Node} {node : Node} {rest : List Node} {err : Error} :
      S.types = before ++ node :: rest → EachCompiles before e →
      (codecOfSchema node.alone (after (compileEach before) e)).result = .error err →
      GivesUp S e err (compileEach before ++ [.resolveNode node])

  | unresolved {err : Error} : LacksRoot S e →
      (resolve S.typeName (after (compileEach S.types) e)).result = .error err →
      GivesUp S e err (compileEach S.types ++ [.resolve S.typeName])

  | uncoded {d : Descriptor} {err : Error} : LacksRoot S e →
      (resolve S.typeName (after (compileEach S.types) e)).result = .ok d → d.isRecord = false →
      Plan.choose (after (compileEach S.types ++ [.resolve S.typeName]) e).plan? S.typeName d
        S.typeName = .error err →
      GivesUp S e err (compileEach S.types ++ [.resolve S.typeName])

  | unextracted {d : Descriptor} {err : Error} : LacksRoot S e →
      (resolve S.typeName (after (compileEach S.types) e)).result = .ok d → d.isRecord = true →
      Extraction.ofDescriptor e.catalog d = .error err →
      GivesUp S e err (compileEach S.types ++ [.resolve S.typeName, .extract d])

  | embedded {d : Descriptor} {ext : Extraction} {before : List Node} {node : Node}
      {rest : List Node} {err : Error} : LacksRoot S e →
      (resolve S.typeName (after (compileEach S.types) e)).result = .ok d → d.isRecord = true →
      Extraction.ofDescriptor e.catalog d = .ok ext →
      ext.schema.types = before ++ node :: rest →
      EachCompiles before (after (compileEach S.types ++ [.resolve S.typeName, .extract d]) e) →
      (codecOfSchema node.alone (after (compileEach S.types ++
        ([.resolve S.typeName, .extract d] ++ compileEach before)) e)).result = .error err →
      GivesUp S e err (compileEach S.types ++ ([.resolve S.typeName, .extract d] ++
        (compileEach before ++ [.resolveNode node])))

theorem ends_compileRoot_failed (name : String) (d : Descriptor) (e : Engine) :
    (compileRoot name d).Ends e (fun _ _ => True)
      fun err t => Plan.choose e.plan? name d name = .error err ∧ t = e := by
  unfold compileRoot
  rw [ends_bind, ends_get, ends_bind, ends_ofExcept]
  exact ⟨fun _ _ => trivial, fun _ failed => ⟨failed, rfl⟩⟩

theorem ends_compileLast_each {ext : Extraction} (rooted : ext.schema.root?.isSome) (d : Descriptor)
    (e : Engine) : (compileWithin 0 ext.schema (some d)).Ends e (fun _ _ => True)
      fun err t => ∃ before node rest, ext.schema.types = before ++ node :: rest ∧
        EachCompiles before e ∧
        (codecOfSchema node.alone (after (compileEach before) e)).result = .error err ∧
        Alike t (after (compileEach before ++ [.resolveNode node]) e) := by
  show (compileRound _ ext.schema (some d)).Ends _ _ _
  unfold compileRound
  rw [ends_bind]
  refine ((ends_compileNodes_each ext.schema.types e).and
    (ends_compileNodes_listed ext.schema.types e)).mono ?_ fun _ _ failed => failed.1
  rintro _ t ⟨-, listed⟩
  obtain ⟨c, compiled⟩ := compiles_root rooted listed
  rw [ends_bind, ends_get, compiled]
  trivial

theorem ends_codecOfRecord_gives_up {e₁ : Engine} (lacks : LacksRoot S e)
    (result : (resolve S.typeName (after (compileEach S.types) e)).result = .ok d)
    (isRecord : d.isRecord = true)
    (alike : Alike e₁ (after (compileEach S.types ++ [.resolve S.typeName]) e)) :
    (codecOfRecord S.typeName d).Ends e₁ (fun _ _ => True)
      fun err t => ∃ done, GivesUp S e err done ∧ Alike t (after done e) := by
  have program := (grown_after (compileEach S.types ++ [.resolve S.typeName]) e).catalog_eq
  rw [after_append] at alike program
  have catalog_eq : e₁.catalog = e.catalog := by rw [← alike.catalog_eq, program]
  have extracts := (blind_extract d).ends alike (ends_self (extract d) _)
  unfold codecOfRecord
  rw [ends_bind]
  refine (extracts.and (ends_extract_eq d e₁)).mono ?_ ?_
  · rintro _ e₂ ⟨⟨_, alike', -, rfl⟩, ext, extracted, rfl⟩
    have rooted := Extraction.isSome_root? extracted isRecord
    rw [catalog_eq] at extracted
    split
    · next rootless =>
      rw [rootless] at rooted
      cases rooted
    · have last := (blind_compileRound (fun _ _ => blind_fail _) _ _).ends alike'
        (ends_compileLast_each rooted d _)
      refine last.mono (fun _ _ _ => trivial) ?_
      rintro err t ⟨_, same, before, node, rest, listed, each, failed, alike''⟩
      refine ⟨_, .embedded lacks result isRecord extracted listed ?_ ?_, ?_⟩
      · rw [after_append]
        exact each
      · rw [after_append, after_append]
        exact failed
      · rw [after_append, after_append]
        exact same.trans alike''
  · rintro err e₂ ⟨⟨_, alike', -, rfl⟩, failed, -⟩
    rw [catalog_eq] at failed
    exact ⟨_, .unextracted lacks result isRecord failed, by rw [after_append]; exact alike'⟩

theorem ends_codecOfRoot_gives_up {e₁ : Engine} (each : EachCompiles S.types e)
    (alike : Alike e₁ (after (compileEach S.types) e)) :
    (codecOfRoot S).Ends e₁ (fun _ _ => True)
      fun err t => ∃ done, GivesUp S e err done ∧ Alike t (after done e) := by
  unfold codecOfRoot
  rw [ends_bind, ends_get]
  split
  · trivial
  · next missing =>
    have lacks : LacksRoot S e := ⟨each, by rw [alike.compiled]; exact missing⟩
    have resolved := (blind_resolving (Registry.resolve S.typeName)).ends alike
      (ends_self (resolve S.typeName) _)
    rw [ends_bind]
    refine resolved.mono ?_ ?_
    · rintro d e₂ ⟨_, alike, result, rfl⟩
      have alike : Alike e₂ (after (compileEach S.types ++ [.resolve S.typeName]) e) := by
        rw [after_append]
        exact alike
      split
      · next isRecord => exact ends_codecOfRecord_gives_up lacks result isRecord alike
      · next other =>
        refine (ends_compileRoot_failed _ d e₂).mono (fun _ _ _ => trivial) ?_
        rintro err _ ⟨failed, rfl⟩
        rw [← alike.plan?_eq] at failed
        exact ⟨_, .uncoded lacks result (Bool.eq_false_of_not_eq_true other) failed, alike⟩
    · rintro err e₂ ⟨_, alike, failed, rfl⟩
      exact ⟨_, .unresolved lacks failed, by rw [after_append]; exact alike⟩

/-- A compilation that fails stops at a type that cannot be compiled, and leaves behind what the
calls before it leave. -/
theorem ends_codecOfSchema_gives_up (S : Schema) (e : Engine) : (codecOfSchema S).Ends e
    (fun _ _ => True) fun err t => ∃ done, GivesUp S e err done ∧ Alike t (after done e) := by
  cases found : e.compiled.get? S.typeName with
  | some c => exact (ends_codecOfSchema_known found).mpr trivial
  | none =>
    rw [ends_codecOfSchema_new found]
    refine ((blind_compileNodes S.types).ends (alike_counted _ e)
      (ends_compileNodes_each S.types e)).mono ?_ ?_
    · rintro _ e₁ ⟨_, same, each, alike⟩
      exact ends_codecOfRoot_gives_up each (same.trans alike)
    · rintro err t ⟨_, same, before, node, rest, listed, each, failed, alike⟩
      exact ⟨_, .listed listed each failed, same.trans alike⟩

/-! ## Calls that compile a schema first -/

/-- The schema that a call compiles before anything else. -/
def Operation.schema? : Operation → Option Schema
  | codecOfSchema schema | serializeValue schema _ | serializeValueInto schema _ _
  | valueSize schema _ | deserializeValue schema _ | deserializeValueFrom schema _ => some schema
  | _ => none

theorem state_bind_of_error {σ α β : Type} {step : Action σ α} {next : α → Action σ β} {s : σ}
    (failed : (step s).result = .error err) : ((step >>= next) s).state = (step s).state := by
  have ends : (step >>= next).Ends s (fun _ t => t = (step s).state) fun _ t =>
      t = (step s).state := by
    rw [ends_bind]
    refine (ends_self step s).mono (fun x t h => ?_) fun _ _ h => h.2
    cases failed.symm.trans h.1
  exact ends.state (fun _ _ h => h) fun _ _ h => h

theorem apply_of_failed {op : Operation} (takes : op.schema? = some S)
    (failed : (codecOfSchema S e).result = .error err) :
    op.apply e = (codecOfSchema S e).state := by
  have beside : ∀ {τ : Type} (t : τ),
      ((Action.first (codecOfSchema S) : Action (Engine × τ) Codec) (e, t)).result = .error err :=
    fun t => failed
  cases op with
  | codecOfSchema schema =>
    obtain rfl := Option.some.inj takes
    rfl
  | serializeValue schema v | valueSize schema v =>
    obtain rfl := Option.some.inj takes
    exact state_bind_of_error failed
  | serializeValueInto schema v sink =>
    obtain rfl := Option.some.inj takes
    exact congrArg Prod.fst (state_bind_of_error (beside sink))
  | deserializeValue schema bytes =>
    obtain rfl := Option.some.inj takes
    exact congrArg Prod.fst (state_bind_of_error (beside (Source.ofBytes bytes)))
  | deserializeValueFrom schema source =>
    obtain rfl := Option.some.inj takes
    exact congrArg Prod.fst (state_bind_of_error (beside source))
  | _ => cases takes

/-- A call that fails because its schema does not compile leaves behind what smaller calls leave:
the types before the one that fails are compiled, and the name of that one is resolved. All later
calls answer as if these had been made in its place. If nothing of this was new, they answer as if
the failed call had never been made. -/
theorem failed_compilation (failed : (codecOfSchema S e).result = .error err) {op : Operation}
    (takes : op.schema? = some S) :
    (∃ done, GivesUp S e err done ∧ ∀ later next, Operation.answer next (after later (op.apply e)) =
      Operation.answer next (after later (after done e))) ∧
    (SameKnowledge e (op.apply e) → ∀ later next, Operation.answer next (after later (op.apply e)) =
      Operation.answer next (after later e)) := by
  rw [apply_of_failed takes failed]
  constructor
  · obtain ⟨done, gives, alike⟩ := (ends_codecOfSchema_gives_up S e).of_error failed
    exact ⟨done, gives, fun later next => ((alike.after later).call next).1.symm⟩
  · intro same later next
    have grown := Writes.grown ((writes_codecOfSchema S).state (s := e) .refl)
    have alike : Alike e (codecOfSchema S e).state := ⟨same, grown.catalog_eq, grown.limits_eq⟩
    exact ((alike.after later).call next).1

/-- A record with a member that cannot be coded: the size of a value is refused, and later calls
answer as if the name of the record had been resolved. -/
theorem failed_compilation_invoice :
    let node : Node := .mk none "Invoice" [.member "Amount" "Decimal"]
    let S : Schema := ⟨"Invoice", 0, [node]⟩
    let e := fresh ⟨fun _ => ⟨[], true, .declared⟩, 0⟩ .standard
    let err : Error := .unsupportedPrimitive "Decimal"
    (codecOfSchema S e).result = .error err ∧ GivesUp S e err [.resolveNode node] ∧
      ∀ later next,
        Operation.answer next (after later ((Operation.valueSize S (.text "")).apply e)) =
          Operation.answer next (after later (after [.resolveNode node] e)) := by
  intro node S e err
  have refused : (codecOfSchema S e).result.map (fun _ => ()) = .error err := by decide +kernel
  have failed : (codecOfSchema S e).result = .error err := by
    cases result : (codecOfSchema S e).result with
    | ok c =>
      rw [result] at refused
      cases refused
    | error other =>
      rw [result] at refused
      exact congrArg _ (Except.error.inj refused)
  have uncompiled : ¬ ∃ c, (codecOfSchema node.alone e).result = .ok c := by
    rintro ⟨c, compiled⟩
    cases failed.symm.trans compiled
  have takes : (Operation.valueSize S (.text "")).schema? = some S := rfl
  obtain ⟨⟨done, gives, same⟩, -⟩ := failed_compilation failed takes
  obtain rfl : done = [.resolveNode node] := by
    cases gives with
    | @listed before _ _ _ split each _ =>
      cases before with
      | nil =>
        obtain ⟨rfl, -⟩ := List.cons.inj split
        rfl
      | cons first before =>
        obtain ⟨rfl, -⟩ := List.cons.inj split
        exact absurd each.1 uncompiled
    | unresolved lacks | uncoded lacks | unextracted lacks | embedded lacks =>
      exact absurd lacks.each.1 uncompiled
  exact ⟨failed, gives, same⟩

/-- A corrected schema compiles on a new engine, but not after the one that it corrects: the record
was made with the member that cannot be coded, and stays. -/
theorem failed_compilation_leaves_trace :
    let wrong : Schema := ⟨"Invoice", 0, [.mk none "Invoice" [.member "Amount" "Decimal"]]⟩
    let right : Schema := ⟨"Invoice", 0, [.mk none "Invoice" [.member "Amount" "Int32"]]⟩
    let e := fresh ⟨fun _ => ⟨[], true, .declared⟩, 0⟩ .standard
    (codecOfSchema wrong e).result.isOk = false ∧ (codecOfSchema right e).result.isOk = true ∧
      (codecOfSchema right (after [.codecOfSchema wrong] e)).result.isOk = false := by
  decide +kernel

end Engine

end SchemaCodec
