import SchemaCodec.Proofs.Engine.StaticRoundTrip
import SchemaCodec.Proofs.Program.Agreement

/-! # History independence

What an engine does with the types of a consistent set does not depend on what it was given before:
it may have met them as the program declares them or in schemas that were extracted from them, in
any order, and so have compiled them from other descriptions.
-/

namespace SchemaCodec

open SchemaCodec.Action MessageType

variable {C : Catalog} {limits : Limits} {types : Set MessageType} {held : String → Codec → Prop}
  {t : MessageType} {S : Schema} {c : Codec} {bytes : List UInt8} {y : Instance}

namespace Catalog

def Extracts (C : Catalog) (types : Set MessageType) (S : Schema) : Prop :=
  ∃ t ∈ types, ∃ ext, Extraction.ofDescriptor C t.describe = .ok ext ∧ S = ext.schema

theorem Extracts.outlines (consistent : C.Consistent types) (h : C.Extracts types S) :
    ∃ t, C.Outlines types S t := by
  obtain ⟨t, mem, ext, accepted, rfl⟩ := h
  exact ⟨t, outlines_extracted consistent (.of_mem mem) (depicts_describe (.of_mem mem)) accepted⟩

theorem Extracts.ordered (h : C.Extracts types S) : ∀ node ∈ S.types, node.Ordered := by
  obtain ⟨t, -, ext, accepted, rfl⟩ := h
  exact Extraction.ordered_types accepted

/-! ## Sequences of the types

A name with marks of sequences resolves to sequences of what is known, whether or not values of the
set are made of them. -/

/-- The types that occur in the set, under any number of sequences. -/
inductive Spans (C : Catalog) (types : Set MessageType) : MessageType → Prop

  | occurs {t : MessageType} : C.Occurs types t → Spans C types t

  | sequence {storage : Storage} {t : MessageType} : Spans C types t →
      Spans C types (.sequence storage t)

theorem Spans.of_occurs (h : C.Occurs {t | C.Spans types t} t) : C.Spans types t := by
  induction h with
  | of_mem mem => exact mem
  | element _ ih =>
    cases ih with
    | occurs h => exact .occurs h.element
    | sequence h => exact h
  | member _ mem ih =>
    cases ih with
    | occurs h => exact .occurs (h.member mem)

theorem Spans.record {id : RecordId} {args : List MessageType}
    (h : C.Occurs {t | C.Spans types t} (.record id args)) : C.Occurs types (.record id args) := by
  cases Spans.of_occurs h with
  | occurs h => exact h

theorem Consistent.spans (consistent : C.Consistent types) :
    C.Consistent {t | C.Spans types t} where
  wellFormed := fun id args occurs => consistent.wellFormed id args (Spans.record occurs)
  declared := fun id args occurs => consistent.declared id args (Spans.record occurs)
  unique := fun id args id' args' occurs occurs' =>
    consistent.unique id args id' args' (Spans.record occurs) (Spans.record occurs')

end Catalog

/-- What any other coding of the type wrote is read as a value that is the instance, and the value is
written to the same bytes. -/
theorem Codec.Sound.exists_decoded {c' : Codec} {x : Instance} {v : Value}
    (h : c.Sound Node.Ordered limits) (fits : C.Fits c.plan t) (admits : C.Admits limits x t)
    (fits' : C.Fits c'.plan t) (ordered : c'.plan.CompiledFrom Node.Ordered)
    (converted : C.toValue x t = .ok v) (written : c'.Writes v bytes) :
    ∃ w source, c.decode (.ofBytes bytes) = .ok w source ∧
      C.ofValue w t = .ok (C.restore x t) ∧ c.Writes w bytes := by
  obtain ⟨v', converted', within, -, read⟩ := Catalog.exists_returns fits h.coherent admits
  obtain rfl := Except.ok.inj (converted.symm.trans converted')
  have written' : c.Writes v bytes := written.congr
    (Catalog.sameEncoding fits' fits ordered h.compiledFrom admits.belongs converted)
  have decoded := Codec.decode_of_writes written' (h.limits_eq.symm ▸ within) []
  rw [List.append_nil] at decoded
  have fixed := (Plan.normalize_fixed h.coherent (Codec.writes_iff.mp written')).1
  exact ⟨_, _, decoded, read, Codec.writes_iff.mpr fixed⟩

namespace Engine

variable {e e' : Engine} {ops : List Operation}

/-! ## Runs -/

/-- The call is about a type of the set: it is given the type, the name of the type or a schema that
was extracted from it. -/
def Operation.Uses (C : Catalog) (types : Set MessageType) : Operation → Prop
  | resolve name => ∃ t ∈ types, name = t.name
  | resolveNode node => ∃ S, C.Extracts types S ∧ node ∈ S.types
  | resolveSchema S => C.Extracts types S
  | codecOfSchema S => C.Extracts types S
  | serializeValue S _ => C.Extracts types S
  | serializeValueInto S _ _ => C.Extracts types S
  | valueSize S _ => C.Extracts types S
  | deserializeValue S _ => C.Extracts types S
  | deserializeValueFrom S _ => C.Extracts types S
  | deserializeNamed name _ => ∃ t ∈ types, name = t.name
  | op => op.Concerns types

theorem Operation.Uses.lists {op : Operation} (uses : op.Uses C types) :
    op.Lists Node.Ordered := by
  cases op <;> first | exact trivial | exact Catalog.Extracts.ordered uses

theorem Operation.Uses.mono {op : Operation} {types' : Set MessageType} (uses : op.Uses C types)
    (sub : types ⊆ types') : op.Uses C types' := by
  have extracts : ∀ {S}, C.Extracts types S → C.Extracts types' S := by
    rintro S ⟨t, mem, found⟩
    exact ⟨t, sub mem, found⟩
  cases op with
  | extract d =>
    obtain ⟨t, mem, same⟩ := uses
    exact ⟨t, sub mem, same⟩
  | resolve name =>
    obtain ⟨t, mem, same⟩ := uses
    exact ⟨t, sub mem, same⟩
  | deserializeNamed name bytes =>
    obtain ⟨t, mem, same⟩ := uses
    exact ⟨t, sub mem, same⟩
  | resolveNode node =>
    obtain ⟨S, extracted, mem⟩ := uses
    exact ⟨S, extracts extracted, mem⟩
  | registerGeneric => exact uses
  | declare => exact uses
  | _ => first | exact sub uses | exact extracts uses

theorem serves_uses (consistent : C.Consistent types)
    (spans : ∀ storage t, C.Occurs types t → C.Occurs types (.sequence storage t))
    {op : Operation} (uses : op.Uses C types) : op.Preserves (Serves C C limits types held) := by
  cases op with
  | resolve name =>
    obtain ⟨t, mem, rfl⟩ := uses
    exact (serves_resolve_named consistent spans (.of_mem mem)).weaken
  | resolveNode node =>
    obtain ⟨S, extracts, mem⟩ := uses
    obtain ⟨t, outlines⟩ := extracts.outlines consistent
    obtain ⟨id, args, lists⟩ := outlines.nodes node mem
    exact (serves_resolveNode consistent lists).weaken
  | resolveSchema S =>
    obtain ⟨t, outlines⟩ := Catalog.Extracts.outlines consistent uses
    exact serves_resolveSchema consistent outlines
  | codecOfSchema S | serializeValue S _ | serializeValueInto S _ _ | valueSize S _
  | deserializeValue S _ | deserializeValueFrom S _ =>
    obtain ⟨t, outlines⟩ := Catalog.Extracts.outlines consistent uses
    exact (serves_codecOfSchema consistent outlines).weaken
  | deserializeNamed name _ =>
    obtain ⟨t, mem, rfl⟩ := uses
    exact serves_codecOfName consistent spans (.of_mem mem)
  | _ => exact serves_preserves consistent uses

/-- The engine serves the types, and its codings were compiled from nodes whose children are in the
order of their names. -/
structure Settled (C : Catalog) (limits : Limits) (types : Set MessageType) (e : Engine) :
    Prop where
  serves : Serves C C limits types (fun _ _ => False) e
  sound : Sound Node.Ordered limits e

theorem settled_fresh (C : Catalog) (limits : Limits) (types : Set MessageType) :
    Settled C limits types (fresh C limits) :=
  ⟨serves_fresh C limits types, sound_fresh Node.Ordered C limits⟩

theorem settled_after (limits : Limits) (consistent : C.Consistent types)
    (uses : ∀ op ∈ ops, op.Uses C types) :
    Settled C limits {t | C.Spans types t} (after ops (fresh C limits)) where
  serves := after_preserves (serves_fresh C limits _) fun op hop =>
    serves_uses consistent.spans (fun _ _ occurs => .of_mem (.sequence (.of_occurs occurs)))
      ((uses op hop).mono fun _ mem => .occurs (.of_mem mem))
  sound := sound_after (fun _ ordered => ordered) C fun op hop => (uses op hop).lists

/-! ## Codings -/

/-- The coding has the limits, and its plan fits the type and has all members in the order of their
names. -/
def Codes (C : Catalog) (limits : Limits) (t : MessageType) (c : Codec) : Prop :=
  c.limits = limits ∧ C.Fits c.plan t ∧ c.plan.CompiledFrom Node.Ordered

theorem Settled.ends_codecOf (consistent : C.Consistent types) (occurs : C.Occurs types t)
    (h : Settled C limits types e) :
    (codecOf t).Ends e
      (fun c e' => e'.catalog = C ∧ C.Accepts t ∧ Codes C limits t c)
      fun err _ => Extraction.ofDescriptor C t.describe = .error err := by
  have sound := sound_codecOf (fun _ ordered => ordered) t e h.sound
  refine ((Engine.ends_codecOf consistent occurs h.serves).and sound).mono ?_
    fun _ _ failed => failed.1.2
  rintro c e' ⟨⟨h', -, fits, accepts⟩, -, codec_sound⟩
  exact ⟨h'.catalog_eq, accepts, codec_sound.limits_eq, fits, codec_sound.compiledFrom⟩

theorem codecs_agree (consistent : C.Consistent types) (occurs : C.Occurs types t)
    (h : Settled C limits types e) (h' : Settled C limits types e') :
    (∃ err, (codecOf t e).result = .error err ∧ (codecOf t e').result = .error err) ∨
      ∃ c c', (codecOf t e).result = .ok c ∧ (codecOf t e').result = .ok c' ∧
        Codes C limits t c ∧ Codes C limits t c' := by
  have ends := h.ends_codecOf consistent occurs
  have ends' := h'.ends_codecOf consistent occurs
  cases result : (codecOf t e).result with
  | ok c =>
    obtain ⟨-, accepts, codes⟩ := ends.of_ok result
    cases result' : (codecOf t e').result with
    | ok c' => exact .inr ⟨c, c', rfl, rfl, codes, (ends'.of_ok result').2.2⟩
    | error err => exact absurd (ends'.of_error result') accepts.ne_error
  | error err =>
    have refused := ends.of_error result
    cases result' : (codecOf t e').result with
    | ok c' => exact absurd refused (ends'.of_ok result').2.1.ne_error
    | error err' =>
      obtain rfl := Except.error.inj (refused.symm.trans (ends'.of_error result'))
      exact .inl ⟨err, rfl, rfl⟩

/-! ## Writing -/

theorem result_prepare (catalog : (codecOf t e).state.catalog = C) (x : Instance) :
    (prepare t x e).result = (do
      let c ← (codecOf t e).result
      let v ← C.toValue x t
      return (c, v)) := by
  rw [prepare, result_bind, ← catalog]
  refine congrArg ((codecOf t e).result >>= ·) (funext fun c => ?_)
  exact @result_bind _ _ _ _ (ofExcept ((codecOf t e).state.catalog.toValue x t)) _

theorem Codes.sameEncoding {c' : Codec} {x : Instance} {v : Value} (h : Codes C limits t c)
    (h' : Codes C limits t c') (belongs : C.Belongs x t) (converted : C.toValue x t = .ok v) :
    c.plan.SameEncoding c'.plan v :=
  Catalog.sameEncoding h.2.1 h'.2.1 h.2.2 h'.2.2 belongs converted

/-- What is done with the value of an instance has one result in two settled engines, if it has one
for all codings that say the same. -/
theorem prepared_agree {α : Type} (consistent : C.Consistent types) (occurs : C.Occurs types t)
    (h : Settled C limits types e) (h' : Settled C limits types e') {x : Instance}
    (belongs : C.Belongs x t) {next : Codec → Value → Except Error α}
    (congr : ∀ c c' v, c.plan.SameEncoding c'.plan v → next c v = next c' v) :
    ((prepare t x e).result >>= fun p => next p.1 p.2) =
      ((prepare t x e').result >>= fun p => next p.1 p.2) := by
  have catalog : ∀ {e}, Settled C limits types e → (codecOf t e).state.catalog = C := fun h =>
    ((Engine.ends_codecOf consistent occurs h.serves).state (fun _ _ done => done.1)
      fun _ _ failed => failed.1).catalog_eq
  rw [result_prepare (catalog h), result_prepare (catalog h')]
  rcases codecs_agree consistent occurs h h' with
    ⟨err, failed, failed'⟩ | ⟨c, c', found, found', codes, codes'⟩
  · rw [failed, failed']
  · rw [found, found']
    cases converted : C.toValue x t with
    | error err => rfl
    | ok v => exact congr c c' v (codes.sameEncoding codes' belongs converted)

/-! ## Reading -/

/-- The bytes begin with a piece that stands for the instance under a plan of the type. -/
def Stands (C : Catalog) (limits : Limits) (t : MessageType) (bytes : List UInt8)
    (y : Instance) : Prop :=
  C.Accepts t ∧ ∃ c v source, Codes C limits t c ∧ c.decode (.ofBytes bytes) = .ok v source ∧
    C.ofValue v t = .ok y

theorem Stands.decode (h : Stands C limits t bytes y) (codes : Codes C limits t c) :
    ∃ v source, c.decode (.ofBytes bytes) = .ok v source ∧ C.ofValue v t = .ok y := by
  obtain ⟨-, c', v, source, codes', decoded, given⟩ := h
  obtain ⟨rfl, fits, ordered⟩ := codes
  obtain ⟨same, fits', ordered'⟩ := codes'
  obtain ⟨piece, rest, rfl, -, read⟩ := (Plan.accepts_decode c'.plan _ _ _ _).mp decoded
  rw [same] at read
  obtain ⟨w, read', agree⟩ := Catalog.reads_agree fits' fits ordered' ordered read
  exact ⟨w, _, (Plan.accepts_decode c.plan).run read' 0 rest, agree.trans given⟩

theorem Settled.deserialize_eq_ok (consistent : C.Consistent types) (occurs : C.Occurs types t)
    (h : Settled C limits types e) :
    (deserialize t bytes e).result = .ok y ↔ Stands C limits t bytes y := by
  have ends : (deserialize t bytes).Ends e (fun x _ => ∀ y, Stands C limits t bytes y ↔ x = y)
      fun _ _ => ∀ y, ¬ Stands C limits t bytes y := by
    rw [deserialize, ends_supplied, deserializeFrom, ends_bind, first, ends_within]
    refine (h.ends_codecOf consistent occurs).mono ?_
      fun err _ refused y stands => stands.1.ne_error refused
    rintro c e' ⟨catalog, accepts, codes⟩
    rw [ends_bind, second, ends_within, ends_ofStateful]
    dsimp only
    cases decoded : c.decode (.ofBytes bytes) with
    | error err source =>
      intro y stands
      obtain ⟨v, s, decoded', -⟩ := stands.decode codes
      cases decoded.symm.trans decoded'
    | ok v source =>
      have given : ∀ y, Stands C limits t bytes y ↔ C.ofValue v t = .ok y := by
        intro y
        constructor
        · intro stands
          obtain ⟨w, s, decoded', given⟩ := stands.decode codes
          obtain ⟨rfl, -⟩ := EStateM.Result.ok.inj (decoded.symm.trans decoded')
          exact given
        · intro given
          exact ⟨accepts, c, v, source, codes, decoded, given⟩
      dsimp only
      rw [ends_bind, ends_get, catalog]
      refine ends_ofExcept.mpr ⟨?_, ?_⟩
      · intro x hx y
        rw [given, hx, Except.ok.injEq]
      · intro err failed y stands
        cases failed.symm.trans ((given y).mp stands)
  constructor
  · intro result
    exact (ends.of_ok result y).mpr rfl
  · intro stands
    cases result : (deserialize t bytes e).result with
    | ok x => rw [(ends.of_ok result y).mp stands]
    | error err => exact absurd stands (ends.of_error result y)

/-! ## The theorem -/

/-- After any calls about types of a consistent set, given as they are or in extracted schemas, and
whether or not they succeed, the instances of a type of the set have the same bytes and sizes, and
byte strings are read as the same instances, as in an engine that has done nothing yet. -/
theorem history_independence (consistent : C.Consistent types)
    (uses : ∀ op ∈ ops, op.Uses C types) (mem : t ∈ types) :
    (∀ x, C.Belongs x t →
      (serialize t x (after ops (fresh C limits))).result =
          (serialize t x (fresh C limits)).result ∧
        (messageSize t x (after ops (fresh C limits))).result =
          (messageSize t x (fresh C limits)).result) ∧
    ∀ bytes y, (deserialize t bytes (after ops (fresh C limits))).result = .ok y ↔
      (deserialize t bytes (fresh C limits)).result = .ok y := by
  have occurs : C.Occurs {t | C.Spans types t} t := .of_mem (.occurs (.of_mem mem))
  have settled := settled_after limits consistent uses
  have start := settled_fresh C limits {t | C.Spans types t}
  refine ⟨fun x belongs => ⟨?_, ?_⟩, fun bytes y => ?_⟩
  · rw [result_serialize, result_serialize]
    exact prepared_agree consistent.spans occurs settled start belongs
      fun c c' v => Codec.toBytes_congr
  · refine (result_then _ _ _).trans (.trans ?_ (result_then _ _ _).symm)
    exact prepared_agree consistent.spans occurs settled start belongs fun c c' v same => same.2
  · exact (settled.deserialize_eq_ok consistent.spans occurs).trans
      (start.deserialize_eq_ok consistent.spans occurs).symm

/-- A vector of points has the bytes that it has in a new engine after points were made from a
schema, bytes were refused, and a deque of points was compiled. -/
theorem history_independence_points : ∃ S,
    points.Extracts {.sequence .vector point, .sequence .deque point} S ∧
    (serialize (.sequence .vector point) (.items [.record [.scalar .int8 7, .text "old"]])
      (after [.codecOfSchema S, .deserializeNamed "Point[]" [1], .codecOf (.sequence .deque point)]
        (fresh points .standard))).result =
      (serialize (.sequence .vector point) (.items [.record [.scalar .int8 7, .text "old"]])
        (fresh points .standard)).result := by
  obtain ⟨ext, accepted⟩ := accepts_points
  have extracts : points.Extracts {.sequence .vector point, .sequence .deque point} ext.schema :=
    ⟨_, .inl rfl, ext, accepted, rfl⟩
  have uses : ∀ op ∈ [Operation.codecOfSchema ext.schema, .deserializeNamed "Point[]" [1],
      .codecOf (.sequence .deque point)],
      op.Uses points {.sequence .vector point, .sequence .deque point} := by
    intro op hop
    rcases List.mem_cons.mp hop with rfl | hop
    · exact extracts
    rcases List.mem_cons.mp hop with rfl | hop
    · exact ⟨.sequence .vector point, .inl rfl, rfl⟩
    · obtain rfl := List.mem_singleton.mp hop
      exact .inr rfl
  exact ⟨_, extracts,
    ((history_independence consistent_points uses (.inl rfl)).1 _ admits_points.belongs).1⟩

end Engine

end SchemaCodec
