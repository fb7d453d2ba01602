import SchemaCodec.Proofs.Program.Portrayal
import SchemaCodec.Proofs.Registry.Denotation
import SchemaCodec.Proofs.Registry.Growth

/-! # Instances of generic records

A generic definition that was captured from a record over its parameters is instantiated to the
members of the record at its arguments: to replace the parameters in names and to resolve what comes
out is the same as to replace them in types.
-/

namespace SchemaCodec

open SchemaCodec.Action SchemaCodec.TypeName MessageType

/-- A record over its parameters, from which a generic definition is captured. -/
def MessageType.template (id : RecordId) (count : Nat) : MessageType :=
  record id ((List.range count).map parameter)

namespace Catalog

variable (C : Catalog) (types : Set MessageType)

def captured (id : RecordId) (count : Nat) : Generic :=
  ⟨id.base, count, (C.members id ((List.range count).map parameter)).map
    fun (name, t) => (name, t.describe)⟩

/-- The record has parameters and no blanks around its name, and names of the set that read as if a
definition of its base were applied to as many arguments are names of the record at arguments. -/
structure Capturable (id : RecordId) (count : Nat) : Prop where
  positive : 0 < count
  trimmed : trim id.base.toList = id.base.toList
  own : ∀ id' args names, C.Involves types (.record id' args) →
    parseGeneric (record id' args).name = some (id.base, names) → names.length = count →
    id' = id ∧ args.length = count

/-- And the name has no arguments of its own. -/
structure Captures (id : RecordId) (count : Nat) : Prop extends Capturable C types id count where
  bare : '<' ∉ id.base.toList

/-- The description is one of every type of the set that has the name. -/
def Renders (name : String) (d : Descriptor) : Prop :=
  ∀ t, C.Involves types t → t.name = name → C.Portrays types d t

variable {C types} {id : RecordId} {args : List MessageType} {count : Nat} {t : MessageType}
  {d : Descriptor} {name base : String} {found : List Descriptor} {g : Generic}

theorem Portrays.renders (legible : C.Legible types) (h : C.Portrays types d t)
    (involves : C.Involves types t) : C.Renders types d.name d := fun _ involves' same =>
  h.of_alike legible (legible.alike involves involves' (h.name_eq.symm.trans same.symm)) involves
    involves'

/-! ## Capturing -/

theorem piece_parameter (index : Nat) : Piece (TypeName.parameter index) := by
  refine @Atomic.piece _ 0 (atomic_parameter index) fun before after split => ?_
  have mem : ',' ∈ (TypeName.parameter index).toList := by
    rw [show (TypeName.parameter index).toList = _ from split]
    simp
  rcases mem_parameter mem with no | no
  · cases no
  · cases no

theorem members_template (C : Catalog) (id : RecordId) (count : Nat) :
    C.members id ((List.range count).map .parameter) =
      ((C.declaration id).fields.filter (!·.skipped)).map fun f => (f.name, f.type) := by
  rw [members]
  refine List.map_congr_left fun f _ => ?_
  rw [subst_parameters]

theorem name_template (positive : 0 < count) :
    (template id count).name = generic id.base ((List.range count).map TypeName.parameter) := by
  have names : ((List.range count).map MessageType.parameter).map MessageType.name =
      (List.range count).map TypeName.parameter := List.map_map
  obtain ⟨n, rfl⟩ : ∃ n, count = n + 1 := ⟨count - 1, by omega⟩
  rw [template, name_record, names, List.range_succ_eq_map]
  rfl

theorem ofTemplate_eq_ok (h : Generic.ofTemplate C d = .ok g) : ∃ base args members,
    d.members? C = some members ∧ parseGeneric d.name = some (base, args) ∧
      Generic.inOrder 0 args = true ∧ g = ⟨base, args.length, members⟩ := by
  unfold Generic.ofTemplate at h
  split at h
  · cases h
  · next members known =>
    split at h
    · cases h
    · next base args parsed =>
      split at h
      · next inOrder => exact ⟨base, args, members, known, parsed, inOrder, (Except.ok.inj h).symm⟩
      · cases h

theorem exists_parameter_of_inOrder {names : List String} {index : Nat}
    (h : Generic.inOrder index names = true) : ∀ a ∈ names, ∃ i, a = TypeName.parameter i := by
  induction names generalizing index with
  | nil => exact fun _ no => absurd no List.not_mem_nil
  | cons name names ih =>
    rw [Generic.inOrder, Bool.and_eq_true, decide_eq_true_eq] at h
    exact List.forall_mem_cons.mpr ⟨⟨index, h.1⟩, ih h.2⟩

/-- Nothing is captured from a record whose base has arguments of its own: an opening bracket would be
read as a part of some parameter. -/
theorem Capturable.captures (h : C.Capturable types id count)
    (captured : Generic.ofTemplate C (template id count).describe = .ok g) :
    C.Captures types id count := by
  refine ⟨h, fun opened => ?_⟩
  obtain ⟨base, args, _, -, parsed, inOrder, -⟩ := ofTemplate_eq_ok captured
  obtain ⟨front, tail, split, first⟩ := List.eq_append_cons_of_mem opened
  have whole := toList_generic id.base ((List.range count).map TypeName.parameter)
  rw [split, ← name_template h.positive, ← name_describe, List.append_assoc, List.cons_append,
    ← List.append_assoc tail] at whole
  obtain ⟨a, ha, inside⟩ := exists_mem_argument (c := '<') parsed whole first (by simp) (by decide)
    (by decide)
  obtain ⟨i, rfl⟩ := exists_parameter_of_inOrder inOrder a ha
  rcases mem_parameter inside with no | no
  · cases no
  · cases no

theorem parts_of_template (captures : C.Captures types id count) {parts : String × List String}
    (h : parseGeneric (template id count).name = some parts) :
    parts = (id.base, (List.range count).map TypeName.parameter) := by
  have each : ∀ a ∈ (List.range count).map TypeName.parameter, Piece a ∧ a ≠ "" := by
    intro a ha
    obtain ⟨i, -, rfl⟩ := List.mem_map.mp ha
    refine ⟨piece_parameter i, fun empty => ?_⟩
    have chars := toList_parameter i
    rw [empty] at chars
    cases chars
  have nonempty : (List.range count).map TypeName.parameter ≠ [] := fun empty => by
    have positive := captures.positive
    have length := congrArg List.length empty
    rw [List.length_map, List.length_range, List.length_nil] at length
    omega
  rw [name_template captures.positive] at h
  rw [parts_of_generic captures.bare captures.trimmed nonempty (fun a ha => (each a ha).1) h,
    List.filter_eq_self.mpr fun a ha => decide_eq_true (each a ha).2]

theorem ofTemplate_captured (captures : C.Captures types id count)
    (h : Generic.ofTemplate C (template id count).describe = .ok g) : g = C.captured id count := by
  obtain ⟨base, args, members, known, parsed, -, rfl⟩ := ofTemplate_eq_ok h
  obtain rfl := Option.some.inj known
  rw [name_describe] at parsed
  obtain ⟨rfl, rfl⟩ := Prod.mk.inj (parts_of_template captures parsed)
  simp [captured]

/-! ## Instantiating -/

/-- To replace the parameters in the names of a description, and to take what the names stand for,
is to replace the parameters in the type. -/
theorem portrays_of_binds (legible : C.Legible types)
    (each : List.Forall₂ (C.Portrays types) found args) (t : MessageType)
    (involves : C.Involves types (t.subst args))
    (h : Registry.Binds (C.Renders types) found t.describe d) :
    C.Portrays types d (t.subst args) := by
  have names : found.map Descriptor.name = args.map MessageType.name :=
    map_eq_map (each.imp fun _ _ portrays => portrays.name_eq)
  -- A type without parameters in its name stays as it is, and so does its description.
  have closed : ∀ {t : MessageType}, ¬ hasParameters t.describe.name = true →
      C.Involves types (t.subst args) → C.Portrays types t.describe (t.subst args) := by
    intro t unmarked involves
    rw [name_describe, Bool.not_eq_true, hasParameters_eq_false] at unmarked
    rw [subst_of_unmarked unmarked] at involves ⊢
    exact portrays_describe legible involves
  induction t generalizing d with
  | primitive p =>
    obtain rfl := h
    exact .primitive p
  | parameter i =>
    rw [MessageType.describe, Registry.Binds] at h
    obtain ⟨a, bound, portrays⟩ := partner_getElem? each h
    rw [subst, bound]
    exact portrays
  | sequence storage element ih =>
    rw [MessageType.describe, Registry.Binds] at h
    rw [subst] at involves ⊢
    split at h
    · obtain ⟨d', bound, rfl⟩ := h
      exact .sequence (ih involves.element bound)
    · next unmarked =>
      obtain rfl := h
      exact .sequence (closed unmarked involves.element)
  | record id ts _ =>
    rw [MessageType.describe, Registry.binds_record rfl] at h
    split at h
    · refine h _ involves ?_
      rw [names, ← substitute_name (legible.unmarked _ involves)]
      rfl
    · next unmarked =>
      obtain rfl := h
      exact @closed (record id ts) unmarked involves

theorem portrays_of_instantiates (legible : C.Legible types)
    (involves : C.Involves types (.record id args)) (nonempty : args ≠ [])
    (each : List.Forall₂ (C.Portrays types) found args)
    (h : Registry.Instantiates (C.Renders types) (C.captured id count) found d) :
    C.Portrays types d (.record id args) := by
  obtain ⟨-, members, bound, rfl⟩ := h
  refine portrays_built ?_ ?_
  · have names : found.map Descriptor.name = args.map MessageType.name :=
      map_eq_map (each.imp fun _ _ portrays => portrays.name_eq)
    obtain ⟨a, as, rfl⟩ := List.exists_cons_of_ne_nil nonempty
    rw [name_record, names]
    rfl
  · rw [captured, members_template, List.map_map, List.forall₂_map_left_iff] at bound
    rw [Catalog.members, List.forall₂_map_right_iff]
    obtain ⟨length, each'⟩ := List.forall₂_iff_zip.mp bound.flip
    refine (forall₂_zip length).imp fun p f pair => ?_
    obtain ⟨same, binds⟩ := each' pair
    have member : (f.name, f.type.subst args) ∈ C.members id args :=
      List.mem_map_of_mem (List.of_mem_zip pair).2
    exact ⟨same.symm, portrays_of_binds legible each f.type (involves.member member) binds⟩

theorem renders_primitive (legible : C.Legible types) {p : Primitive}
    (spelled : Primitive.ofSpelling? base = some p) : C.Renders types base (.primitive p) := by
  rintro t involves rfl
  cases t with
  | primitive q =>
    obtain rfl := Option.some.inj ((ofSpelling?_name q).symm.trans spelled)
    exact .primitive _
  | parameter i => cases legible.bound involves
  | sequence storage element => cases (ofSpelling?_array element.name).symm.trans spelled
  | record id args => cases (legible.wellFormed id args involves).foreign.symm.trans spelled

theorem renders_arrays (legible : C.Legible types)
    (h : C.Renders types (TypeName.splitArrays name).1 d) :
    C.Renders types name (d.arrays (TypeName.splitArrays name).2) := by
  rintro t involves rfl
  rw [legible.splitArrays involves] at h ⊢
  exact (h _ involves.innermost rfl).arrays

theorem names_of_application (legible : C.Legible types) (captures : C.Captures types id count)
    (involves : C.Involves types (.record id args)) {names : List String}
    (parsed : parseGeneric (record id args).name = some (id.base, names))
    (length : names.length = args.length) : names = args.map MessageType.name := by
  have pieces := legible.pieces involves
  rw [name_record] at parsed
  cases args with
  | nil => exact absurd (mem_of_parseGeneric parsed) captures.bare
  | cons a as =>
    have parts := parts_of_generic captures.bare captures.trimmed (List.cons_ne_nil _ _) pieces
      parsed
    obtain ⟨-, rfl⟩ := Prod.mk.inj parts
    refine List.filter_eq_self.mpr (List.length_filter_eq_length_iff.mp (length.trans ?_))
    rw [List.length_cons, List.length_cons, List.length_map]

theorem renders_application (legible : C.Legible types) (captures : C.Captures types id count)
    {names : List String} (uncut : TypeName.splitArrays base = (base, 0))
    (parsed : parseGeneric base = some (id.base, names))
    (each : List.Forall₂ (C.Renders types) names found)
    (h : Registry.Instantiates (C.Renders types) (C.captured id count) found d) :
    C.Renders types base d := by
  rintro t involves rfl
  have opened := mem_of_parseGeneric parsed
  cases t with
  | primitive p => exact absurd opened (not_mem_of_spelling (ofSpelling?_name p))
  | parameter i => cases legible.bound involves
  | sequence storage element =>
    exact absurd (Prod.mk.inj ((legible.splitArrays involves).symm.trans uncut)).2
      (Nat.succ_ne_zero _)
  | record id' args =>
    have counted : names.length = count := each.length_eq.trans h.1
    obtain ⟨rfl, length⟩ := captures.own id' args names involves parsed counted
    have nonempty : args ≠ [] := by
      rintro rfl
      exact captures.bare opened
    obtain rfl := names_of_application legible captures involves parsed (counted.trans length.symm)
    rw [List.forall₂_map_left_iff] at each
    obtain ⟨same, each'⟩ := List.forall₂_iff_zip.mp each.flip
    refine portrays_of_instantiates legible involves nonempty ((forall₂_zip same).imp ?_) h
    intro d' a pair
    exact each' pair a (involves.argument (List.of_mem_zip pair).2) rfl

end Catalog

open Catalog

namespace Registry

/-- Every generic definition is one that was captured under its base, and whatever else is known of
a name is a description of the types of that name. -/
structure Versed (C : Catalog) (types : Set MessageType) (r : Registry) : Prop where
  generics : ∀ base g, r.generics.get? base = some g →
    ∃ id count, C.Captures types id count ∧ base = id.base ∧ g = C.captured id count
  declared : ∀ name d, r.declared.get? name = some d → C.Renders types name d
  resolved : ∀ name d, r.resolved.get? name = some d → C.Renders types name d

variable {C : Catalog} {types : Set MessageType} {r : Registry} {name base : String}
  {d : Descriptor} {resolve : String → Action Registry Descriptor} {id : RecordId} {count : Nat}

theorem versed_empty (C : Catalog) (types : Set MessageType) : Versed C types empty := by
  refine ⟨?_, ?_, ?_⟩
  all_goals
    intro _ _ no
    cases no

theorem Versed.declare (h : Versed C types r) (renders : C.Renders types d.name d) :
    Versed C types { r with declared := r.declared.add d.name d } := by
  refine ⟨h.generics, fun name d' found => ?_, h.resolved⟩
  rcases Cache.get?_add_eq_some found with old | ⟨-, rfl, rfl⟩
  · exact h.declared name d' old
  · exact renders

theorem Versed.note (h : Versed C types r) (renders : C.Renders types name d) :
    Versed C types (r.note name d) := by
  refine ⟨h.generics, h.declared, fun other d' found => ?_⟩
  rcases Cache.get?_add_eq_some found with old | ⟨-, rfl, rfl⟩
  · exact h.resolved other d' old
  · exact renders

theorem versed_declareGeneric (captures : C.Captures types id count) :
    (declareGeneric (C.captured id count)).Keeps (Versed C types) (fun _ => True)
      fun _ => True := by
  refine (keeps_report _).bind fun _ _ => keeps_modify fun r h => ?_
  refine ⟨fun base g (found : (r.generics.put id.base _).get? base = some g) => ?_, h.declared,
    h.resolved⟩
  by_cases same : base = id.base
  · subst same
    rw [Cache.get?_put_self] at found
    exact ⟨id, count, captures, rfl, (Option.some.inj found).symm⟩
  · rw [Cache.get?_put_of_ne same] at found
    exact h.generics base g found

/-! ## Resolving -/

theorem versed_resolveBase (legible : C.Legible types)
    (h : ∀ name, (resolve name).Keeps (Versed C types) (fun _ => True) (C.Renders types name))
    (uncut : TypeName.splitArrays base = (base, 0)) :
    (resolveBase resolve base).Keeps (Versed C types) (fun _ => True)
      fun found => ∀ d, found = some d → C.Renders types base d := by
  refine keeps_get.bind fun r versed => ?_
  split
  · next d known =>
    refine keeps_pure ?_
    rintro _ ⟨⟩
    rcases Option.or_eq_some_iff.mp known with noted | ⟨-, declared⟩
    · exact versed.resolved base d noted
    · exact versed.declared base d declared
  · split
    · next g names application =>
      obtain ⟨own, parsed, known⟩ := application?_eq_some.mp application
      obtain ⟨id, count, captures, rfl, rfl⟩ := versed.generics own g known
      refine (Keeps.traverse (Q := C.Renders types) fun name _ => h name).bind fun args all =>
        (keeps_instantiate h _ args).bind fun d instance_ => keeps_pure ?_
      rintro _ ⟨⟩
      exact renders_application legible captures uncut parsed all instance_
    · refine keeps_pure fun d found => ?_
      obtain ⟨p, spelled, rfl⟩ := Option.map_eq_some_iff.mp found
      exact renders_primitive legible spelled

theorem versed_resolveWithin (legible : C.Legible types) (depth : Nat) (pending : List String)
    (name : String) : (resolveWithin depth pending name).Keeps (Versed C types) (fun _ => True)
      (C.Renders types name) := by
  induction depth generalizing pending name with
  | zero =>
    unfold resolveWithin
    refine keeps_get.bind fun r versed => ?_
    split
    · next d noted => exact keeps_pure (versed.resolved name d noted)
    · split <;> exact keeps_fail trivial
  | succ depth ih =>
    unfold resolveWithin
    refine keeps_get.bind fun r versed => ?_
    split
    · next d noted => exact keeps_pure (versed.resolved name d noted)
    · split
      · exact keeps_fail trivial
      · refine (versed_resolveBase legible (fun name => ih _ name)
          (TypeName.splitArrays_fst name)).bind fun found renders => ?_
        split
        · exact keeps_fail trivial
        · next d =>
          have whole := renders_arrays legible (renders d rfl)
          refine keeps_get.bind fun r versed => ?_
          refine (keeps_modify fun r versed => versed.note whole).bind fun _ _ => keeps_pure ?_
          exact Cache.getOr_eq _ (fun d' held => versed.resolved name d' held) whole

theorem versed_resolve (legible : C.Legible types) (name : String) :
    (Registry.resolve name).Keeps (Versed C types) (fun _ => True) (C.Renders types name) :=
  versed_resolveWithin legible depthLimit [] name

theorem ends_resolve_declared_name (atomic : Atomic name) (declared : r.Declares name) :
    (Registry.resolve name).Ends r (fun _ _ => True) fun _ _ => False := by
  obtain ⟨d, known⟩ := declared
  cases found : r.resolved.get? name with
  | some d =>
    rw [ends_resolve_known found]
    trivial
  | none =>
    have held : (r.resolved.get? name).or (r.declared.get? name) = some d := by
      rw [found, known]
      rfl
    have plain : (r.resolved.get? name).or (r.declared.get? name) = none →
        r.application? name = none := fun no => by
      rw [held] at no
      cases no
    rw [ends_resolve_new found (splitArrays_arrays atomic 0) plain, base?, held]
    trivial

theorem ends_resolveNode_versed (legible : C.Legible types) (h : Versed C types r) {node : Node}
    (atomic : Atomic node.typeName) (declared : r.Declares node.typeName) :
    (resolveNode node).Ends r
      (fun d r' => (Versed C types r' ∧ Writes r r') ∧ C.Renders types node.typeName d)
      fun _ _ => False := by
  apply ends_resolveNode
  have both := (versed_resolve legible node.typeName r h).and (writes_resolve node.typeName r .refl)
  exact (both.and (ends_resolve_declared_name atomic declared)).mono
    (fun _ _ done => ⟨⟨done.1.1.1, done.1.2.1⟩, done.1.1.2⟩) fun _ _ no => no.2

end Registry

end SchemaCodec
