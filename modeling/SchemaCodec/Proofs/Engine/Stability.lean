import SchemaCodec.Proofs.Engine.Growth
import SchemaCodec.Proofs.Engine.Rejection

/-! # Stable answers

What a call has answered once is held, so it is the answer for good. Only a schema whose root is a
record asked for by another spelling of its name leaves room for a later schema that lists a record
of that spelling.
-/

namespace SchemaCodec.Engine

open SchemaCodec.Action

variable {C : Catalog} {limits : Limits} {e e' : Engine} {S : Schema} {c : Codec} {d : Descriptor}
  {t : MessageType} {name : String}

/-! ## Codings of schemas -/

/-- The root of the schema is a record that is not listed, known by another spelling of its name.
The listed nodes are compiled, and so is what the record itself leads to. -/
structure Derives (e : Engine) (S : Schema) (d : Descriptor) (ext : Extraction) (c : Codec) :
    Prop where
  unlisted : ∀ node ∈ S.types, node.typeName ≠ S.typeName
  listed : ∀ node ∈ S.types, e.Compiles node.typeName
  resolved : e.registry.resolved.get? S.typeName = some d
  isRecord : d.isRecord = true
  extracted : Extraction.ofDescriptor e.catalog d = .ok ext
  rooted : ext.schema.root?.isSome
  held : e.Equipped ext.schema c

/-- Why a schema has its coding once it is compiled. -/
inductive Provides (e : Engine) (S : Schema) (c : Codec) : Prop

  | held : e.compiled.get? S.typeName = some c → Provides e S c

  | derived {d : Descriptor} {ext : Extraction} : e.Derives S d ext c → Provides e S c

theorem Equipped.grown (h : e.Equipped S c) (grown : e.Grown e') : e'.Equipped S c :=
  ⟨grown.compiled.get? h.1, fun node mem => (h.2 node mem).grown grown⟩

theorem Derives.grown {ext : Extraction} (h : e.Derives S d ext c) (grown : e.Grown e') :
    e'.Derives S d ext c where
  unlisted := h.unlisted
  listed node mem := (h.listed node mem).grown grown
  resolved := grown.resolved.get? h.resolved
  isRecord := h.isRecord
  extracted := by rw [grown.catalog_eq, h.extracted]
  rooted := h.rooted
  held := h.held.grown grown

theorem Provides.grown (h : e.Provides S c) (grown : e.Grown e') : e'.Provides S c := by
  cases h with
  | held found => exact .held (grown.compiled.get? found)
  | derived derives => exact .derived (derives.grown grown)

theorem ends_resolve_grown (name : String) (e : Engine) :
    (resolve name).Ends e
      (fun d e' => e'.registry.resolved.get? name = some d ∧ e.Grown e') fun _ _ => True := by
  refine ends_grown (Q := fun d e' => e'.registry.resolved.get? name = some d)
    (R := fun _ _ => True) (writes_resolve name) ?_
  rw [resolve, ends_resolving]
  exact Registry.ends_resolve_noted name e.registry

theorem ends_codecOfRecord_provides (unlisted : ∀ node ∈ S.types, node.typeName ≠ S.typeName)
    (listed : ∀ node ∈ S.types, e.Compiles node.typeName)
    (resolved : e.registry.resolved.get? S.typeName = some d) (isRecord : d.isRecord = true) :
    (codecOfRecord S.typeName d).Ends e (fun c e' => e'.Provides S c) fun _ _ => True := by
  unfold codecOfRecord
  rw [ends_bind]
  refine (ends_extract_grown d e).mono ?_ fun _ _ _ => trivial
  rintro _ e₁ ⟨⟨ext, extracted, rfl⟩, grown⟩
  have same := (Extraction.ofDescriptor_eq_ok extracted).2.1
  split
  · trivial
  · next rooted =>
    refine (ends_grown (writes_compileRound (fun _ _ => keeps_fail trivial) _ _)
      (ends_compileLast_held same e₁)).mono ?_ fun _ _ _ => trivial
    rintro c e₂ ⟨held, grown'⟩
    have all := grown.trans grown'
    rw [← all.catalog_eq] at extracted
    exact .derived ⟨unlisted, fun node mem => (listed node mem).grown all,
      all.resolved.get? resolved, isRecord, extracted, by rw [rooted]; rfl, held⟩

theorem ends_codecOfRoot_provides (listed : ∀ node ∈ S.types, e.Compiles node.typeName) :
    (codecOfRoot S).Ends e (fun c e' => e'.Provides S c) fun _ _ => True := by
  unfold codecOfRoot
  rw [ends_bind, ends_get]
  split
  · next found => exact .held found
  · next missing =>
    rw [ends_bind]
    refine (ends_resolve_grown S.typeName e).mono ?_ fun _ _ _ => trivial
    rintro d e₁ ⟨resolved, grown⟩
    split
    · next isRecord =>
      exact ends_codecOfRecord_provides (unlisted_of_missing listed missing)
        (fun node mem => (listed node mem).grown grown) resolved isRecord
    · refine (ends_compileRoot_held _ d e₁).mono ?_ fun _ _ _ => trivial
      exact fun c e' found => .held found

theorem ends_codecOfSchema_provides (S : Schema) (e : Engine) :
    (codecOfSchema S).Ends e (fun c e' => e'.Provides S c) fun _ _ => True := by
  cases found : e.compiled.get? S.typeName with
  | some c =>
    rw [ends_codecOfSchema_known found]
    exact .held found
  | none =>
    rw [ends_codecOfSchema_new found]
    exact (ends_compileNodes_listed S.types _).mono (fun _ _ => ends_codecOfRoot_provides)
      fun _ _ _ => trivial

/-! ## Later answers -/

theorem ends_compileNodes_held {nodes : List Node} {Q : Unit → Engine → Prop}
    {R : Error → Engine → Prop} (listed : ∀ node ∈ nodes, e.Compiles node.typeName) :
    (compileNodes nodes).Ends e Q R ↔ Q () e := by
  induction nodes with
  | nil => exact Iff.rfl
  | cons node nodes ih =>
    obtain ⟨⟨c, known⟩, rest⟩ := List.forall_mem_cons.mp listed
    rw [ends_compileNodes_known known]
    exact ih rest

theorem Equipped.ends_compileRound {again : Schema → Descriptor → Action Engine Codec}
    {Q : Codec → Engine → Prop} {R : Error → Engine → Prop} {root : Option Descriptor}
    (h : e.Equipped S c) : (compileRound again S root).Ends e Q R ↔ Q c e := by
  unfold compileRound
  rw [ends_bind, ends_compileNodes_held h.2, ends_bind, ends_get, h.1]
  exact Iff.rfl

theorem Derives.ends_codecOfRoot {ext : Extraction} (h : e.Derives S d ext c)
    (missing : e.compiled.get? S.typeName = none) :
    (codecOfRoot S).Ends e (fun c' _ => c' = c) fun _ _ => False := by
  unfold codecOfRoot codecOfRecord
  rw [ends_bind, ends_get, missing]
  dsimp only
  rw [ends_bind, resolve, ends_resolving, Registry.ends_resolve_known h.resolved,
    if_pos h.isRecord, ends_bind]
  refine ((ends_extract_eq d e).and (writes_extract d e .refl)).mono ?_ ?_
  · rintro _ e' ⟨⟨ext', extracted, rfl⟩, writes, -⟩
    obtain rfl := Except.ok.inj (h.extracted.symm.trans extracted)
    obtain ⟨node, rooted⟩ := Option.isSome_iff_exists.mp h.rooted
    rw [rooted]
    exact (h.held.grown (Writes.grown writes)).ends_compileRound.mpr rfl
  · rintro error _ ⟨⟨failed, -⟩, -⟩
    cases h.extracted.symm.trans failed

theorem Provides.result (h : e.Provides S c) :
    (codecOfSchema S e).result = .ok (e.compiled.getOr S.typeName c) := by
  have answers : (codecOfSchema S).Ends e (fun c' _ => c' = e.compiled.getOr S.typeName c)
      fun _ _ => False := by
    rw [Cache.getOr]
    cases found : e.compiled.get? S.typeName with
    | some c' => exact (ends_codecOfSchema_known found).mpr rfl
    | none =>
      rw [ends_codecOfSchema_new found]
      cases h with
      | held known => cases found.symm.trans known
      | derived derives =>
        have counted := (Write.counters (e := e) fun c =>
          { c with compileMisses := c.compileMisses + 1 }).grown
        rw [ends_compileNodes_held fun node mem => (derives.listed node mem).grown counted]
        exact (derives.grown counted).ends_codecOfRoot found
  obtain ⟨c', result, rfl⟩ := answers.result
  exact result

/-! ## Answers that stay -/

/-- Once the step has succeeded, it succeeds with the same value after any further calls. -/
def Stable {α : Type} (step : Action Engine α) (e : Engine) : Prop :=
  ∀ x, (step e).result = .ok x → ∀ ops, (step (after ops (step e).state)).result = .ok x

/-- An answer that is held when it is given, and given where it is held, stays. -/
theorem stable_of_held {α : Type} {step : Action Engine α} {K : α → Engine → Prop}
    (held : step.Ends e K fun _ _ => True)
    (grown : ∀ x e e', e.Grown e' → K x e → K x e')
    (answers : ∀ x e, K x e → step.Ends e (fun y _ => y = x) fun _ _ => False) :
    Stable step e := by
  intro x succeeded ops
  have known := grown x _ _ (grown_after ops _) (held.of_ok succeeded)
  obtain ⟨y, result, rfl⟩ := (answers x _ known).result
  exact result

theorem ends_resolve_held (known : e.registry.resolved.get? name = some d) :
    (resolve name).Ends e (fun d' _ => d' = d) fun _ _ => False := by
  rw [resolve, ends_resolving, Registry.ends_resolve_known known]

theorem stable_resolve (name : String) (e : Engine) : Stable (resolve name) e := by
  apply stable_of_held (K := fun d e => e.registry.resolved.get? name = some d)
  · exact (ends_resolve_grown name e).mono (fun _ _ h => h.1) fun _ _ _ => trivial
  · exact fun _ _ _ grown known => grown.resolved.get? known
  · exact fun _ _ known => ends_resolve_held known

def Resolves (e : Engine) (name : String) : Prop := ∃ d, e.registry.resolved.get? name = some d

theorem Resolves.grown (h : e.Resolves name) (grown : e.Grown e') : e'.Resolves name := by
  obtain ⟨d, found⟩ := h
  exact ⟨d, grown.resolved.get? found⟩

theorem ends_resolveNodes (nodes : List Node) (e : Engine) :
    (Action.traverse resolveNode nodes).Ends e
      (fun _ e' => ∀ node ∈ nodes, e'.Resolves node.typeName) fun _ _ => True := by
  induction nodes generalizing e with
  | nil => exact List.forall_mem_nil _
  | cons node nodes ih =>
    rw [Action.traverse, ends_bind, resolveNode, ends_resolving]
    refine (Registry.ends_resolveNode_noted node e.registry).mono (fun d r noted => ?_)
      fun _ _ _ => trivial
    rw [ends_bind]
    refine (ends_grown (Keeps.traverse (Q := fun _ _ => True) fun node _ =>
      writes_resolveNode node) (ih _)).mono ?_ fun _ _ _ => trivial
    rintro _ e' ⟨others, grown⟩
    exact List.forall_mem_cons.mpr ⟨⟨d, grown.resolved.get? noted⟩, others⟩

theorem ends_resolveNodes_held {nodes : List Node}
    (known : ∀ node ∈ nodes, e.Resolves node.typeName) :
    (Action.traverse resolveNode nodes).Ends e (fun _ e' => e' = e) fun _ _ => False := by
  induction nodes with
  | nil => rfl
  | cons node nodes ih =>
    obtain ⟨⟨d, found⟩, others⟩ := List.forall_mem_cons.mp known
    rw [Action.traverse, ends_bind, resolveNode, ends_resolving]
    apply Registry.ends_resolveNode
    rw [Registry.ends_resolve_known found, ends_bind]
    exact ih others

theorem stable_resolveSchema (S : Schema) (e : Engine) : Stable (resolveSchema S) e := by
  apply stable_of_held (K := fun d e => (∀ node ∈ S.types, e.Resolves node.typeName) ∧
    e.registry.resolved.get? S.typeName = some d)
  · unfold resolveSchema
    rw [ends_bind]
    refine (ends_resolveNodes S.types e).mono (fun _ e known => ?_) fun _ _ _ => trivial
    refine (ends_resolve_grown S.typeName e).mono ?_ fun _ _ _ => trivial
    exact fun d e' h => ⟨fun node mem => (known node mem).grown h.2, h.1⟩
  · exact fun d e e' grown h =>
      ⟨fun node mem => (h.1 node mem).grown grown, grown.resolved.get? h.2⟩
  · rintro d e ⟨known, root⟩
    unfold resolveSchema
    rw [ends_bind]
    refine (ends_resolveNodes_held known).mono ?_ fun _ _ no => no
    rintro _ _ rfl
    exact ends_resolve_held root

theorem ends_schemaOf_known (known : e.schemas.get? t = some S) :
    (schemaOf t).Ends e (fun schema e' => schema = S ∧ e'.compiled = e.compiled)
      fun _ _ => False := by
  unfold schemaOf
  rw [ends_bind, ends_get, known]
  exact ⟨rfl, rfl⟩

theorem stable_schemaOf (t : MessageType) (e : Engine) : Stable (schemaOf t) e := by
  apply stable_of_held (ends_schemaOf_held t e)
  · exact fun _ _ _ grown known => grown.schemas.get? known
  · exact fun _ _ known => (ends_schemaOf_known known).mono (fun _ _ h => h.1) fun _ _ no => no

theorem stable_codecOf (reachable : Reachable C limits e) (t : MessageType) :
    Stable (codecOf t) e := by
  apply stable_of_held (K := fun c e => ∃ schema, e.schemas.get? t = some schema ∧
    e.compiled.get? schema.typeName = some c)
  · have named := (ends_schemaOf_reachable reachable t).and (ends_schemaOf_held t e)
    unfold codecOf
    rw [ends_bind]
    refine named.mono ?_ fun _ _ _ => trivial
    rintro schema e₁ ⟨⟨ext, extracted, rfl⟩, known⟩
    have same := (Extraction.ofDescriptor_eq_ok extracted).2.1
    rw [ends_bind, ends_get]
    split
    · next found => exact ⟨_, known, found⟩
    · rw [ends_bind, ends_count, ends_bind, ends_report]
      refine (ends_grown (writes_compile _ _) (ends_compile_held same _)).mono ?_
        fun _ _ _ => trivial
      rintro c e₂ ⟨held, grown⟩
      exact ⟨_, grown.schemas.get? known, held.1⟩
  · rintro c e e' grown ⟨schema, known, found⟩
    exact ⟨schema, grown.schemas.get? known, grown.compiled.get? found⟩
  · rintro c e ⟨schema, known, found⟩
    unfold codecOf
    rw [ends_bind]
    refine (ends_schemaOf_known known).mono ?_ fun _ _ no => no
    rintro _ e' ⟨rfl, same⟩
    rw [ends_bind, ends_get, same, found]
    rfl

theorem keyed_of_reachable (reachable : Reachable C limits e)
    (found : e.compiled.get? name = some c) : c.typeName = name := by
  obtain ⟨ops, rfl⟩ := reachable
  have keyed := after_of_write (e := fresh C limits)
    (I := fun e => ∀ name c, e.compiled.get? name = some c → c.typeName = name) ?_
    (fun _ _ no => by cases no) ops
  · exact keyed name c found
  · intro e e' write keyed name c found
    cases write with
    | compiled =>
      rcases Cache.get?_add_eq_some found with old | ⟨-, rfl, rfl⟩
      · exact keyed name c old
      · rfl
    | _ => exact keyed name c found

theorem Reachable.after (h : Reachable C limits e) (ops : List Operation) :
    Reachable C limits (after ops e) := by
  obtain ⟨before, rfl⟩ := h
  exact ⟨before ++ ops, by rw [Engine.after, Engine.after, Engine.after, List.foldl_append]⟩

/-- A schema that has its coding is answered with it, or with what another schema compiled under the
name that its root is asked for by. -/
theorem Provides.answer (h : e.Provides S c) (reachable : Reachable C limits e) :
    ∃ c', (codecOfSchema S e).result = .ok c' ∧
      (c' = c ∨ c.typeName ≠ S.typeName ∧ (∀ node ∈ S.types, node.typeName ≠ S.typeName) ∧
        e.compiled.get? S.typeName = some c') := by
  refine ⟨_, h.result, ?_⟩
  rw [Cache.getOr]
  cases now : e.compiled.get? S.typeName with
  | none => exact .inl rfl
  | some c' =>
    cases h with
    | held found => exact .inl (Option.some.inj (now.symm.trans found))
    | derived derives =>
      by_cases same : c.typeName = S.typeName
      · have found := derives.held.1
        rw [← keyed_of_reachable reachable found, same, now] at found
        exact .inl (Option.some.inj found)
      · exact .inr ⟨same, derives.unlisted, rfl⟩

/-- Whatever is called on an engine, and whether it succeeds or not, no entry of its caches is
changed or removed. So an answer once given is given again: the type of a name or of a schema, the
schema and the coding of a type of the program. The coding of a schema is given again too, unless it
is that of a record which the schema asks for by another spelling and does not list, and a coding
has been compiled under that spelling meanwhile. -/
theorem answers_stay (reachable : Reachable C limits e) :
    (∀ ops, e.Grown (after ops e)) ∧
    (∀ name, Stable (resolve name) e) ∧ (∀ S, Stable (resolveSchema S) e) ∧
    (∀ t, Stable (schemaOf t) e) ∧ (∀ t, Stable (codecOf t) e) ∧
    ∀ S c, (codecOfSchema S e).result = .ok c → ∀ ops, ∃ c',
      (codecOfSchema S (after ops (codecOfSchema S e).state)).result = .ok c' ∧
      (c' = c ∨ c.typeName ≠ S.typeName ∧ (∀ node ∈ S.types, node.typeName ≠ S.typeName) ∧
        (after ops (codecOfSchema S e).state).compiled.get? S.typeName = some c') := by
  refine ⟨fun ops => grown_after ops e, fun name => stable_resolve name e,
    fun S => stable_resolveSchema S e, fun t => stable_schemaOf t e,
    fun t => stable_codecOf reachable t, fun S c compiled ops => ?_⟩
  have provides := ((ends_codecOfSchema_provides S e).of_ok compiled).grown (grown_after ops _)
  exact provides.answer ((reachable.after [.codecOfSchema S]).after ops)

/-- The coding of a record stays while another schema gives the record other members, and while a
conflicting type and a generic definition are made known. -/
theorem answers_stay_record :
    let S : Schema := ⟨"P", 0, [.mk none "P" [.member "x" "Int32"]]⟩
    let e := fresh ⟨fun _ => ⟨[], true, .declared⟩, 0⟩ .standard
    let ops : List Operation := [.codecOfSchema ⟨"P", 0, [.mk none "P" [.member "y" "String"]]⟩,
      .declare (.built "P" "P" .declared []),
      .registerGeneric (.built "P<Param<0>>" "P" .declared [("item", .parameter 0)])]
    ∃ c, (codecOfSchema S e).result = .ok c ∧
      (codecOfSchema S (after ops (codecOfSchema S e).state)).result = .ok c := by
  intro S e ops
  have compiled : (codecOfSchema S e).result.isOk = true := by decide +kernel
  obtain ⟨-, -, -, -, -, stays⟩ := answers_stay (e := e) ⟨[], rfl⟩
  cases result : (codecOfSchema S e).result with
  | ok c =>
    obtain ⟨c', again, rfl | ⟨-, unlisted, -⟩⟩ := stays S c result ops
    · exact ⟨c', rfl, again⟩
    · exact absurd rfl (unlisted _ List.mem_cons_self)
  | error err =>
    rw [result] at compiled
    cases compiled

/-- A root with a blank before its name stands for the record without the blank, and it is compiled
as that record until a schema lists a record with the blank. -/
theorem answer_changed_by_spelling :
    let S : Schema := ⟨" A", 0, [.mk none "A" [.member "x" "Int32"]]⟩
    let e := fresh ⟨fun _ => ⟨[], true, .declared⟩, 9⟩ .standard
    ((codecOfSchema S e).result.toOption.map Codec.typeName,
      (codecOfSchema S (after [.codecOfSchema ⟨" A", 0, [.type " A"]⟩]
        (codecOfSchema S e).state)).result.toOption.map Codec.typeName) =
    (some "A", some " A") := by
  decide +kernel

end SchemaCodec.Engine
