import SchemaCodec.Proofs.Engine.Instantiation
import SchemaCodec.Proofs.Engine.Residue
import SchemaCodec.Proofs.TypeName.Balance

/-! # Instances read by name

After any calls of a program that capture generic records, resolve names and use types of a legible
set, a name of the set that resolves has the members of its type, and the bytes that an engine of the
program writes for an instance are read under that name as the instance.
-/

namespace SchemaCodec.Engine

open SchemaCodec.Action MessageType Catalog

variable {C : Catalog} {limits limits' : Limits} {types : Set MessageType} {t : MessageType}
  {id : RecordId} {count : Nat} {d : Descriptor} {x : Instance} {bytes : List UInt8} {e : Engine}
  {ops ops' : List Operation}

/-! ## Runs -/

/-- The call is about a type of the set or its name, captures a generic record, or resolves a name,
whatever it is. -/
def Operation.Hosted (C : Catalog) (types : Set MessageType) : Operation → Prop
  | registerGeneric template =>
    ∃ id count, C.Capturable types id count ∧ template = (MessageType.template id count).describe
  | declare d => ∃ t ∈ types, d = t.describe
  | resolve _ => True
  | deserializeNamed name _ => ∃ t ∈ types, name = t.name
  | op => op.Concerns types

theorem hosts_registerGeneric (capturable : C.Capturable types id count) :
    (registerGeneric (MessageType.template id count).describe).Keeps (Hosts C types)
      (fun _ => True) fun _ => True := by
  intro e h
  unfold registerGeneric
  rw [ends_bind, ends_get, h.catalog_eq, ends_bind]
  refine ends_ofExcept.mpr ⟨fun g captured => ?_, fun _ _ => ⟨h, trivial⟩⟩
  have captures := capturable.captures captured
  obtain rfl := ofTemplate_captured captures captured
  rw [ends_bind]
  exact hosts_resolving (Registry.versed_declareGeneric captures)
    (fun _ => Registry.writes_declareGeneric _) e h

theorem hosts_declare (legible : C.Legible types) (involves : C.Involves types t) :
    (declare t.describe).Keeps (Hosts C types) (fun _ => True) fun _ => True := by
  refine hosts_resolving (Registry.keeps_declare fun r known _ => known.declare ?_)
    fun _ => Registry.writes_declare _
  exact (portrays_describe legible involves).renders legible involves

theorem hosts_codecOfName (legible : C.Legible types) (involves : C.Involves types t) :
    (codecOfName t.name).Keeps (Hosts C types) (fun _ => True) fun _ => True := by
  intro e h
  refine (ends_codecOfName_hosted legible involves h (hosts_resolve legible t.name e h)).mono ?_ ?_
  · exact fun _ _ done => ⟨done.1, trivial⟩
  · rintro _ _ (failed | failed)
    · exact failed
    · exact ⟨failed.1, trivial⟩

theorem hosts_preserves (legible : C.Legible types) {op : Operation} (hosted : op.Hosted C types) :
    op.Preserves (Hosts C types) := by
  have supports : ∀ t ∈ types, Supports C t (Hosts C types) := fun t mem =>
    supports_hosts legible (.of_mem mem)
  cases op with
  | registerGeneric template =>
    obtain ⟨id, count, capturable, rfl⟩ := hosted
    exact hosts_registerGeneric capturable
  | declare d =>
    obtain ⟨t, mem, rfl⟩ := hosted
    exact hosts_declare legible (.of_mem mem)
  | resolve name => exact (hosts_resolve legible name).weaken
  | deserializeNamed name _ =>
    obtain ⟨t, mem, rfl⟩ := hosted
    exact hosts_codecOfName legible (.of_mem mem)
  | schemaOf t | register t =>
    exact fun e h => ((supports t hosted).ends_schemaOf h).mono (fun _ _ done => ⟨done.1, trivial⟩)
      fun _ _ failed => ⟨failed.1, trivial⟩
  | extract d =>
    obtain ⟨t, mem, rfl⟩ := hosted
    exact fun e h => ((supports t mem).extract e h).mono (fun _ _ done => ⟨done.1, trivial⟩)
      fun _ _ failed => ⟨failed.1, trivial⟩
  | codecOf t | serialize t _ | serializeInto t _ _ | serializeAt t _ _ _ | messageSize t _
  | deserialize t _ | deserializeFrom t _ =>
    exact fun e h => ((supports t hosted).ends_codecOf h).mono (fun _ _ done => ⟨done.1, trivial⟩)
      fun _ _ failed => ⟨failed.1, trivial⟩
  | _ => exact hosted.elim

theorem Operation.Hosted.lists {op : Operation} (hosted : op.Hosted C types) :
    op.Lists Node.Ordered := by
  cases op <;> first | exact trivial | exact hosted.elim

/-- The engine hosts the types, and its codings were compiled from nodes whose children are in the
order of their names. -/
structure Hosting (C : Catalog) (limits : Limits) (types : Set MessageType) (e : Engine) :
    Prop where
  hosts : Hosts C types e
  sound : Sound Node.Ordered limits e

theorem hosting_after (limits : Limits) (legible : C.Legible types)
    (hosted : ∀ op ∈ ops, op.Hosted C types) :
    Hosting C limits types (after ops (fresh C limits)) where
  hosts := after_preserves (hosts_fresh C limits types) fun op hop =>
    hosts_preserves legible (hosted op hop)
  sound := sound_after (fun _ ordered => ordered) C fun op hop => (hosted op hop).lists

/-! ## Writing and reading -/

/-- What an engine writes for an instance is written by a coding that fits the type, from the value
that the instance is converted to. -/
theorem Hosting.of_serialized (h : Hosting C limits types e) (legible : C.Legible types)
    (involves : C.Involves types t) (written : (serialize t x e).result = .ok bytes) :
    C.Accepts t ∧ ∃ (c : Codec) (v : Value), C.Fits c.plan t ∧ c.plan.CompiledFrom Node.Ordered ∧
      C.toValue x t = .ok v ∧ c.Writes v bytes := by
  have ends := ((supports_hosts legible involves).ends_codecOf h.hosts).and
    (sound_codecOf (fun _ ordered => ordered) t e h.sound)
  have catalog : (codecOf t e).state.catalog = C :=
    (ends.state (fun _ _ done => done.1.1) fun _ _ failed => failed.1.1).catalog_eq
  obtain ⟨c, v, prepared, writes⟩ := serialize_eq_ok.mp written
  rw [result_prepare catalog, bind_eq_ok] at prepared
  obtain ⟨c', found, prepared⟩ := prepared
  obtain ⟨v', converted, pair⟩ := bind_eq_ok.mp prepared
  obtain ⟨rfl, rfl⟩ := Prod.mk.inj (return_eq_ok.mp pair)
  obtain ⟨⟨-, -, fits, accepts⟩, -, sound⟩ := ends.of_ok found
  exact ⟨accepts, c', v', fits, sound.compiledFrom, converted, writes⟩

theorem Hosting.ends_deserializeNamed {c : Codec} {v : Value} (h : Hosting C limits types e)
    (legible : C.Legible types) (involves : C.Involves types t) (accepts : C.Accepts t)
    (admits : C.Admits limits x t) (resolved : (resolve t.name e).result = .ok d)
    (fits : C.Fits c.plan t) (ordered : c.plan.CompiledFrom Node.Ordered)
    (converted : C.toValue x t = .ok v) (written : c.Writes v bytes) :
    (deserializeNamed t.name bytes).Ends e
      (fun w _ => C.ofValue w t = .ok (C.restore x t)) fun _ _ => False := by
  have resolves : (resolve t.name).Ends e
      (fun d e' => Hosts C types e' ∧ C.Renders types t.name d) fun _ _ => False :=
    ends_of_ok resolved ((hosts_resolve legible t.name e h.hosts).of_ok resolved)
  have ends := (ends_codecOfName_hosted legible involves h.hosts resolves).and
    (sound_codecOfName (fun _ ordered => ordered) t.name e h.sound)
  rw [deserializeNamed, ends_bind]
  refine ends.mono ?_ ?_
  · rintro c' e' ⟨⟨-, fits'⟩, -, sound⟩
    obtain ⟨w, source, decoded, read, -⟩ :=
      sound.exists_decoded fits' admits fits ordered converted written
    rw [ends_supplied, second, ends_within, ends_ofStateful]
    dsimp only
    rw [decoded]
    exact read
  · rintro err e' ⟨no | ⟨-, refused⟩, -⟩
    · exact no
    · exact refused accepts

/-! ## The theorem -/

/-- After any calls of a program that capture generic records, resolve names and use types of a
legible set, a name of the set that resolves, by instantiation or not, stands for a type of that name
with the members of the type of the set: their names, in their order, with the names of their types.
What another engine of the program writes for an instance is from then on read under the name as a
value that is the instance, apart from fields that are never serialized. -/
theorem instance_read_by_name (legible : C.Legible types) (mem : t ∈ types)
    (hosted : ∀ op ∈ ops, op.Hosted C types)
    (resolved : (resolve t.name (after ops (fresh C limits))).result = .ok d) :
    d.name = t.name ∧
    (d.members C).map (fun m => (m.1, m.2.name)) =
      (t.describe.members C).map (fun m => (m.1, m.2.name)) ∧
    ∀ ops' later, (∀ op ∈ ops', op.Hosted C types) → (∀ op ∈ later, op.Hosted C types) →
      ∀ x bytes, C.Admits limits x t →
        (serialize t x (after ops' (fresh C limits'))).result = .ok bytes →
        ∃ w, (deserializeNamed t.name bytes
            (after (ops ++ .resolve t.name :: later) (fresh C limits))).result = .ok w ∧
          C.ofValue w t = .ok (C.restore x t) := by
  have involves : C.Involves types t := .of_mem mem
  have renders := ((hosts_resolve legible t.name _ (hosting_after limits legible hosted).hosts).of_ok
    resolved).2
  have portrays := renders t involves rfl
  refine ⟨portrays.name_eq, ?_, fun ops' later hosted' hosted'' x bytes admits written => ?_⟩
  · have related := (simulates_portrays legible).members _ _ ⟨t, rfl, involves, portrays⟩
    refine (map_eq_map (related.imp ?_)).symm
    rintro m m' ⟨same, t', described, -, portrays'⟩
    rw [same, described, name_describe, portrays'.name_eq]
  · obtain ⟨accepts, c, v, fits, ordered, converted, writes⟩ :=
      (hosting_after limits' legible hosted').of_serialized legible involves written
    have all : ∀ op ∈ ops ++ .resolve t.name :: later, op.Hosted C types := by
      intro op hop
      rcases List.mem_append.mp hop with first | hop
      · exact hosted op first
      · rcases List.mem_cons.mp hop with rfl | last
        · trivial
        · exact hosted'' op last
    have again := stable_resolve t.name _ d resolved later
    obtain ⟨w, read, same⟩ := ((hosting_after limits legible all).ends_deserializeNamed legible
      involves accepts admits (by rw [after_append]; exact again) fits ordered converted
      writes).result
    exact ⟨w, read, same⟩

def pairs : Catalog where
  declaration := fun id =>
    if id.base = "Pair" then
      ⟨[⟨"left", .parameter 0, fun args => args[0]?.getD .placeholder, false⟩,
        ⟨"rows", .sequence .vector (.record ⟨"Box", "Box", 1⟩ [.parameter 1]), fun _ => .items [],
          false⟩,
        ⟨"note", .string, fun _ => .text "none", true⟩], true, .declared⟩
    else if id.base = "Dot" then
      ⟨[⟨"x", .scalar .int8, fun _ => .scalar .int8 0, false⟩], true, .declared⟩
    else ⟨[⟨"item", .parameter 0, fun args => args[0]?.getD .placeholder, false⟩], true, .declared⟩
  capacity := 3

def dot : MessageType := .record ⟨"Dot", "Dot", 0⟩ []

def boxed : MessageType := .record ⟨"Box", "Box", 1⟩ [.sequence .vector (.scalar .int32)]

def pair : MessageType := .record ⟨"Pair", "Pair", 2⟩ [dot, .sequence .vector (.scalar .int32)]

theorem involved_pair {t : MessageType} (h : pairs.Involves {pair, dot} t) :
    t ∈ [pair, dot, boxed, .sequence .vector boxed, .sequence .vector (.scalar .int32),
      .scalar .int32, .scalar .int8] :=
  h.mem_of_parts (by rintro t (rfl | rfl) <;> decide) (by decide)

theorem record_involved_pair {args : List MessageType}
    (h : pairs.Involves {pair, dot} (.record id args)) :
    record id args = pair ∨ record id args = dot ∨ record id args = boxed := by
  simpa using involved_pair h

theorem legible_pair : pairs.Legible {pair, dot} := by
  have wellFormed : ∀ name ∈ ["Pair<Dot, Int32[]>", "Dot", "Box<Int32[]>"],
      TypeName.WellFormed name := TypeName.wellFormed_of_balanced (by decide)
  have unmarked : ∀ t ∈ [pair, dot, boxed, .sequence .vector boxed,
      .sequence .vector (.scalar .int32), .scalar .int32, .scalar .int8], '$' ∉ t.name.toList := by
    decide
  refine ⟨fun id args involves => ?_, fun id args t involves mem before after split => ?_,
    fun t involves => unmarked t (involved_pair involves), fun id args involves => ?_,
    fun id args id' args' involves involves' same => ?_⟩
  · rcases record_involved_pair involves with same | same | same <;> rw [same] <;>
      exact wellFormed _ (by decide)
  · have comma : ',' ∈ t.name.toList := by rw [split]; simp
    have none_ : ∀ t ∈ [dot, .sequence .vector (.scalar .int32)], ',' ∉ t.name.toList := by decide
    refine absurd comma (none_ t ?_)
    rcases record_involved_pair involves with same | same | same <;> cases same
    · exact mem
    · cases mem
    · exact List.mem_cons_of_mem _ mem
  · rcases record_involved_pair involves with same | same | same <;> cases same <;> decide
  · rcases record_involved_pair involves with first | first | first <;> cases first <;>
      rcases record_involved_pair involves' with second | second | second <;> cases second <;>
      first | rfl | exact absurd same (by decide)

theorem capturable_pair : pairs.Capturable {pair, dot} ⟨"Pair", "Pair", 2⟩ 2 := by
  refine ⟨by decide, by decide, fun id args names involves parsed _ => ?_⟩
  rcases record_involved_pair involves with same | same | same <;> cases same
  · exact ⟨rfl, rfl⟩
  · cases parsed
  · have base : (TypeName.parseGeneric boxed.name).map Prod.fst = some "Pair" :=
      congrArg (Option.map Prod.fst) parsed
    exact absurd base (by decide)

theorem capturable_box : pairs.Capturable {pair, dot} ⟨"Box", "Box", 1⟩ 1 := by
  refine ⟨by decide, by decide, fun id args names involves parsed _ => ?_⟩
  rcases record_involved_pair involves with same | same | same <;> cases same
  · have base : (TypeName.parseGeneric pair.name).map Prod.fst = some "Box" :=
      congrArg (Option.map Prod.fst) parsed
    exact absurd base (by decide)
  · cases parsed
  · exact ⟨rfl, rfl⟩

def row (note : String) : Instance :=
  .record [.record [.scalar .int8 7], .items [.record [.items [.scalar .int32 1, .scalar .int32 2]]],
    .text note]

theorem admits_row (note : String) : pairs.Admits .standard (row note) pair := by
  refine .record rfl fun p hp kept => ?_
  rcases List.mem_cons.mp hp with rfl | hp
  · refine .record rfl fun p hp kept => ?_
    obtain rfl := List.mem_singleton.mp hp
    exact .scalar .int8 7
  rcases List.mem_cons.mp hp with rfl | hp
  · refine .items (by decide) (by decide) fun x hx => ?_
    obtain rfl := List.mem_singleton.mp hx
    refine .record rfl fun p hp kept => ?_
    obtain rfl := List.mem_singleton.mp hp
    refine .items (by decide) (by decide) fun x hx => ?_
    rcases List.mem_cons.mp hx with rfl | hx
    · exact .scalar .int32 1
    · obtain rfl := List.mem_singleton.mp hx
      exact .scalar .int32 2
  · obtain rfl := List.mem_singleton.mp hp
    cases kept

/-- A pair is instantiated from its name and read under it, without the note. -/
theorem instance_read_by_name_pair :
    let ops : List Operation := [.register dot,
      .registerGeneric (MessageType.template ⟨"Pair", "Pair", 2⟩ 2).describe,
      .registerGeneric (MessageType.template ⟨"Box", "Box", 1⟩ 1).describe]
    ∃ d bytes w, (resolve pair.name (after ops (fresh pairs .standard))).result = .ok d ∧
      d.origin pairs = .instantiated ∧
      (d.members pairs).map (fun m => (m.1, m.2.name)) =
        [("left", "Dot"), ("rows", "Box<Int32[]>[]")] ∧
      (serialize pair (row "old") (fresh pairs .standard)).result = .ok bytes ∧
      (deserializeNamed pair.name bytes
        (after (ops ++ [.resolve pair.name]) (fresh pairs .standard))).result = .ok w ∧
      pairs.ofValue w pair = .ok (row "none") := by
  intro ops
  have hosted : ∀ op ∈ ops, op.Hosted pairs {pair, dot} := by
    intro op hop
    rcases List.mem_cons.mp hop with rfl | hop
    · exact .inr rfl
    rcases List.mem_cons.mp hop with rfl | hop
    · exact ⟨_, _, capturable_pair, rfl⟩
    · obtain rfl := List.mem_singleton.mp hop
      exact ⟨_, _, capturable_box, rfl⟩
  have none_hosted : ∀ op ∈ ([] : List Operation), op.Hosted pairs {pair, dot} := fun _ no => by
    cases no
  have resolves : ((resolve pair.name (after ops (fresh pairs .standard))).result.toOption.map
      fun d => d.origin pairs) = some .instantiated := by decide +kernel
  have writes : (serialize pair (row "old") (fresh pairs .standard)).result.isOk = true := by
    decide +kernel
  cases resolved : (resolve pair.name (after ops (fresh pairs .standard))).result with
  | error err =>
    rw [resolved] at resolves
    cases resolves
  | ok d =>
    rw [resolved] at resolves
    cases written : (serialize pair (row "old") (fresh pairs .standard)).result with
    | error err =>
      rw [written] at writes
      cases writes
    | ok bytes =>
      obtain ⟨-, members, reads⟩ :=
        @instance_read_by_name _ _ .standard _ _ _ _ legible_pair (.inl rfl) hosted resolved
      obtain ⟨w, read, same⟩ :=
        reads [] [] none_hosted none_hosted (row "old") bytes (admits_row "old") written
      exact ⟨d, bytes, w, rfl, Option.some.inj resolves, members, rfl, read, same⟩

/-- Names with a comma at their end, and generic names with a blank at their end, are well formed, but
they are read as other names. -/
theorem instance_of_other_name :
    let C : Catalog := ⟨fun id =>
      ⟨if id.serial < 2 then [] else [⟨"item", .parameter 0, fun _ => .placeholder, false⟩], true,
        .declared⟩, 3⟩
    let comma : MessageType := .record ⟨"a,", "A", 0⟩ []
    let plain : MessageType := .record ⟨"a", "B", 1⟩ []
    let ops : List Operation := [.register comma, .register plain,
      .registerGeneric (MessageType.template ⟨"G", "G", 2⟩ 1).describe,
      .registerGeneric (MessageType.template ⟨"H ", "H", 3⟩ 1).describe]
    let resolved := fun t : MessageType =>
      (resolve t.name (after ops (fresh C .standard))).result.toOption.map fun d =>
        (d.origin C, d.name, (d.members C).map fun m => (m.1, m.2.name))
    let records := [comma, plain, .record ⟨"G", "G", 2⟩ [comma], .record ⟨"H ", "H", 3⟩ [plain]]
    (∀ r ∈ records, TypeName.WellFormed r.name ∧ '$' ∉ r.name.toList) ∧
      (records.map MessageType.name).Nodup ∧
    (record ⟨"G", "G", 2⟩ [comma]).name = "G<a,>" ∧
      resolved (.record ⟨"G", "G", 2⟩ [comma]) = some (.instantiated, "G<a>", [("item", "a")]) ∧
    (record ⟨"H ", "H", 3⟩ [plain]).name = "H <a>" ∧
      resolved (.record ⟨"H ", "H", 3⟩ [plain]) = some (.instantiated, "H<a>", [("item", "a")]) := by
  intro C comma plain ops resolved records
  have wellFormed : ∀ name ∈ ["a,", "a", "G<a,>", "H <a>"], TypeName.WellFormed name :=
    TypeName.wellFormed_of_balanced (by decide)
  refine ⟨fun r hr => ⟨wellFormed r.name (by revert r; decide), by revert r; decide⟩, ?_⟩
  decide +kernel

end SchemaCodec.Engine
