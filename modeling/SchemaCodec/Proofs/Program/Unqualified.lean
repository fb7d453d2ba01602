import SchemaCodec.Proofs.Program.Depiction
import SchemaCodec.Proofs.Program.Naming
import SchemaCodec.Proofs.TypeName.Grammar
import SchemaCodec.Proofs.TypeName.Short

/-! # Unqualified names of types

The name of a type is put together from the names of modules, records and arguments. Taking it apart
at the marks, the arguments and the path gives the identifier of the record, under as many marks as
there are levels of sequence. So it gives the unqualified name that the type is described with.
-/

namespace SchemaCodec

/-- The canonical name of the record without arguments is a path up to the unqualified name. -/
def RecordId.Qualified (id : RecordId) : Prop :=
  ∃ path, TypeName.Leads path ∧ id.base.toList = path ++ id.short.toList ∧
    '<' ∉ id.base.toList ∧ '.' ∉ id.short.toList ∧ ':' ∉ id.short.toList

theorem RecordId.Qualified.short_eq {id : RecordId} (h : id.Qualified) {args : List MessageType}
    (whole : TypeName.splitArrays (MessageType.record id args).name =
      ((MessageType.record id args).name, 0)) :
    TypeName.short (MessageType.record id args).name = id.short := by
  obtain ⟨path, leads, same, bare, dotless, colonless⟩ := h
  rw [same] at bare
  have named : ∃ tail : List Char, (∀ c ∈ tail.head?, c = '<') ∧
      (MessageType.record id args).name.toList = path ++ id.short.toList ++ tail := by
    rw [MessageType.name]
    cases MessageType.names args with
    | nil => exact ⟨[], by simp, by rw [MessageType.recordName, same, List.append_nil]⟩
    | cons arg args =>
      refine ⟨'<' :: ((", ".intercalate (arg :: args)).toList ++ ['>']), by simp, ?_⟩
      show (TypeName.generic id.base (arg :: args)).toList = _
      rw [TypeName.generic, String.toList_append, String.toList_append, String.toList_append, same]
      simp
  obtain ⟨tail, ends, split⟩ := named
  rw [TypeName.short_qualified whole leads dotless colonless bare ends split,
    String.ofList_toList]

namespace TypeName

variable {name : String} {index : Nat} {c : Char}

/-- The text has no blank in it, and none of the characters that names are cut at. -/
def Unbroken (text : String) : Prop :=
  ∀ c ∈ text.toList, isBlank c = false ∧ c ∉ ['<', '>', ',', '[', ']']

instance (text : String) : Decidable (Unbroken text) := List.decidableBAll _ text.toList

/-- An identifier has no separator of a path in it either. -/
structure Identifier (name : String) : Prop where
  nonempty : name.toList ≠ []
  unbroken : Unbroken name
  dotless : '.' ∉ name.toList
  colonless : ':' ∉ name.toList

def Unbroken.path (h : Unbroken name) (nonempty : name.toList ≠ []) : Path where
  name := name
  nonempty := nonempty
  trimmed := trim_eq_self fun c hc => (h c hc).1
  bare c hc := (h c hc).2

theorem not_mem_parameter (sign : c ≠ '$') (digit : c.isDigit = false) :
    c ∉ (parameter index).toList := by
  intro mem
  rcases mem_parameter mem with same | found
  · exact sign same
  · cases digit.symm.trans found

theorem identifier_parameter (index : Nat) : Identifier (parameter index) where
  nonempty := by simp [toList_parameter]
  unbroken := by
    intro c hc
    constructor
    · rcases mem_parameter hc with rfl | digit
      · decide
      · exact (plain_of_isDigit digit).1
    · intro cut
      simp only [List.mem_cons, List.not_mem_nil, or_false] at cut
      rcases cut with rfl | rfl | rfl | rfl | rfl <;>
        exact not_mem_parameter (by decide) (by decide) hc
  dotless := not_mem_parameter (by decide) (by decide)
  colonless := not_mem_parameter (by decide) (by decide)

theorem Identifier.short_eq (h : Identifier name) : short name = name := by
  have whole : splitArrays name = (name, 0) :=
    (Expr.path (h.unbroken.path h.nonempty)).splitArrays_print
  have opened : '<' ∉ [] ++ name.toList := fun mem => (h.unbroken _ mem).2 (by decide)
  have split : name.toList = [] ++ name.toList ++ [] := by simp
  rw [short_qualified whole .start h.dotless h.colonless opened (by simp) split,
    String.ofList_toList]

end TypeName

/-- The canonical name of the record is the path of its module and its identifier, no other name. -/
structure RecordId.Derived (id : RecordId) : Prop where
  identifier : TypeName.Identifier id.short
  placed : ∃ path, TypeName.Unbroken path ∧ id.base = path ++ "::" ++ id.short

namespace RecordId.Derived

variable {id : RecordId}

theorem unbroken (h : id.Derived) : TypeName.Unbroken id.base := by
  obtain ⟨path, whole, same⟩ := h.placed
  intro c hc
  rw [same, String.toList_append, String.toList_append] at hc
  rcases List.mem_append.mp hc with outer | inner
  · rcases List.mem_append.mp outer with place | separator
    · exact whole c place
    · exact (by decide : TypeName.Unbroken "::") c separator
  · exact h.identifier.unbroken c inner

theorem nonempty (h : id.Derived) : id.base.toList ≠ [] := by
  obtain ⟨path, -, same⟩ := h.placed
  rw [same, String.toList_append, String.toList_append]
  simp

theorem qualified (h : id.Derived) : id.Qualified := by
  obtain ⟨path, -, same⟩ := h.placed
  refine ⟨path.toList ++ [':', ':'], .colons _, ?_, fun opened => ?_, h.identifier.dotless,
    h.identifier.colonless⟩
  · rw [same, String.toList_append, String.toList_append]
    rfl
  · exact (h.unbroken _ opened).2 (by decide)

end RecordId.Derived

namespace MessageType

open SchemaCodec.TypeName

/-- All records in the type, those in its arguments included, are named after their identifiers. -/
inductive Derived : MessageType → Prop

  | primitive (p : Primitive) : Derived (.primitive p)

  | parameter (index : Nat) : Derived (.parameter index)

  | sequence {storage : Storage} {element : MessageType} : Derived element →
      Derived (.sequence storage element)

  | record {id : RecordId} {args : List MessageType} : id.Derived → (∀ t ∈ args, Derived t) →
      Derived (.record id args)

def identifier : MessageType → String
  | primitive p => p.name
  | parameter index => TypeName.parameter index
  | sequence _ element => element.identifier
  | record id _ => id.short

variable {t : MessageType} {ts : List MessageType}

theorem shortName_eq_arrays (t : MessageType) :
    t.describe.shortName = arrays t.identifier t.levels := by
  induction t with
  | sequence storage element ih => exact congrArg array ih
  | _ => rfl

def Printed (t : MessageType) (e : Expr) : Prop :=
  e.print = t.name ∧ e.levels = t.levels ∧ e.core.print = t.innermost.name

theorem exists_printAll (each : ∀ t ∈ ts, ∃ e, Printed t e) :
    ∃ es, Expr.printAll es = ts.map name := by
  induction ts with
  | nil => exact ⟨[], rfl⟩
  | cons t ts ih =>
    obtain ⟨⟨e, printed, -, -⟩, others⟩ := List.forall_mem_cons.mp each
    obtain ⟨es, printedAll⟩ := ih others
    exact ⟨e :: es, by rw [Expr.printAll, printed, printedAll, List.map_cons]⟩

namespace Derived

theorem exists_printed (h : t.Derived) : ∃ e, Printed t e := by
  induction h with
  | primitive p =>
    obtain ⟨path, same⟩ := Grammar.isPath_of_spelling (ofSpelling?_name p)
    have printed := String.toList_inj.mp same
    exact ⟨.path path, printed, rfl, printed⟩
  | parameter index =>
    have plain := identifier_parameter index
    exact ⟨.path (plain.unbroken.path plain.nonempty), rfl, rfl, rfl⟩
  | sequence _ ih =>
    obtain ⟨e, printed, levels, core⟩ := ih
    exact ⟨.array e, congrArg array printed, congrArg Nat.succ levels, core⟩
  | @record id args derived _ ih =>
    let path := derived.unbroken.path derived.nonempty
    cases args with
    | nil => exact ⟨.path path, rfl, rfl, rfl⟩
    | cons arg args =>
      obtain ⟨⟨e, printed, -, -⟩, others⟩ := List.forall_mem_cons.mp ih
      obtain ⟨es, printedAll⟩ := exists_printAll others
      have same : (Expr.applied path e es).print = (MessageType.record id (arg :: args)).name := by
        rw [Expr.print, printed, printedAll, name_record]
        rfl
      exact ⟨.applied path e es, same, rfl, same⟩

theorem splitArrays_name (h : t.Derived) :
    splitArrays t.name = (t.innermost.name, t.levels) := by
  obtain ⟨e, printed, levels, core⟩ := h.exists_printed
  rw [← printed, e.splitArrays_print, levels, core]

theorem short_innermost (h : t.Derived) : short t.innermost.name = t.identifier := by
  induction h with
  | primitive p => exact short_name p
  | parameter index => exact (identifier_parameter index).short_eq
  | sequence _ ih => exact ih
  | record derived each => exact derived.qualified.short_eq (record derived each).splitArrays_name

theorem splitArrays_innermost (h : t.Derived) :
    splitArrays t.innermost.name = (t.innermost.name, 0) := by
  induction h with
  | primitive p => exact splitArrays_name (.primitive p)
  | parameter index => exact splitArrays_name (.parameter index)
  | sequence _ ih => exact ih
  | record derived each => exact splitArrays_name (.record derived each)

/-- The two ways to the name and the unqualified name of a type agree: what a type is described with
is what it calls itself, and the unqualified name is the part of the name that is left without paths
and arguments, namely the identifier under as many marks as there are levels of sequence. -/
theorem names_agree (h : t.Derived) : t.describe.name = t.name ∧
    t.describe.shortName = short t.describe.name ∧
    t.describe.shortName = arrays t.identifier t.levels := by
  have named := Catalog.name_describe t
  have short_eq : short t.name = arrays t.identifier t.levels := by
    rw [short_of_splitArrays h.splitArrays_name h.splitArrays_innermost, h.short_innermost]
  exact ⟨named, by rw [named, short_eq, shortName_eq_arrays], shortName_eq_arrays t⟩

/-- Sequences of a pair, one of whose arguments is a list of labelled boxes. -/
theorem names_agree_nested : ∃ t : MessageType,
    t.name = "app::geo::Pair<app::Box<Int32[], shop::goods::Label>[], String>[][]" ∧
    t.describe.name = t.name ∧ t.describe.shortName = short t.describe.name ∧
    t.describe.shortName = "Pair[][]" := by
  let label : RecordId := ⟨"shop::goods::Label", "Label", 0⟩
  let box : RecordId := ⟨"app::Box", "Box", 0⟩
  let pair : RecordId := ⟨"app::geo::Pair", "Pair", 0⟩
  let boxes : MessageType := .sequence .slice
    (.record box [.sequence .vector (.scalar .int32), .record label []])
  let t : MessageType := .sequence .deque (.sequence .vector (.record pair [boxes, .string]))
  have label_derived : label.Derived :=
    ⟨⟨by decide, by decide, by decide, by decide⟩, "shop::goods", by decide, rfl⟩
  have box_derived : box.Derived :=
    ⟨⟨by decide, by decide, by decide, by decide⟩, "app", by decide, rfl⟩
  have pair_derived : pair.Derived :=
    ⟨⟨by decide, by decide, by decide, by decide⟩, "app::geo", by decide, rfl⟩
  have boxes_derived : boxes.Derived := by
    refine .sequence (.record box_derived (List.forall_mem_cons.mpr
      ⟨.sequence (.primitive _), List.forall_mem_singleton.mpr ?_⟩))
    exact .record label_derived (List.forall_mem_nil _)
  have derived : t.Derived :=
    .sequence (.sequence (.record pair_derived (List.forall_mem_cons.mpr
      ⟨boxes_derived, List.forall_mem_singleton.mpr (.primitive _)⟩)))
  obtain ⟨named, short_eq, same⟩ := names_agree derived
  exact ⟨t, by decide +kernel, named, short_eq, same.trans (by decide +kernel)⟩

end Derived

end MessageType

end SchemaCodec
