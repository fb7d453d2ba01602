import SchemaCodec.Proofs.TypeName.Canonical

/-! # Canonical names as trees

A canonical name is a path, a path applied to names, or a name with the mark of a sequence after it.
It is taken apart into what it was put together from, so no two trees have the same name.
-/

namespace SchemaCodec.TypeName

@[ext]
structure Path where
  name : String
  nonempty : name.toList ≠ []
  trimmed : trim name.toList = name.toList
  bare : ∀ c ∈ name.toList, c ∉ ['<', '>', ',', '[', ']']

/-- A name as it is put together; a path is applied to at least one name. -/
inductive Expr
  | path (p : Path)
  | applied (p : Path) (arg : Expr) (args : List Expr)
  | array (element : Expr)

@[induction_eliminator]
theorem Expr.induct {motive : Expr → Prop}
    (path : ∀ p, motive (.path p))
    (applied : ∀ p arg args, (∀ a ∈ arg :: args, motive a) → motive (.applied p arg args))
    (array : ∀ element, motive element → motive (.array element)) (e : Expr) : motive e :=
  Expr.rec (motive_1 := motive) (motive_2 := fun args => ∀ a ∈ args, motive a)
    path (fun p arg args head tail => applied p arg args (List.forall_mem_cons.mpr ⟨head, tail⟩))
    array (List.forall_mem_nil _)
    (fun _ _ head tail => List.forall_mem_cons.mpr ⟨head, tail⟩) e

namespace Expr

mutual

def print : Expr → String
  | path p => p.name
  | applied p arg args => generic p.name (print arg :: printAll args)
  | array element => TypeName.array (print element)

def printAll : List Expr → List String
  | [] => []
  | e :: es => print e :: printAll es

end

def core : Expr → Expr
  | path p => path p
  | applied p arg args => applied p arg args
  | array element => element.core

def levels : Expr → Nat
  | path _ => 0
  | applied _ _ _ => 0
  | array element => element.levels + 1

variable {e e' arg : Expr} {p : Path} {args : List Expr}

theorem printAll_eq (es : List Expr) : printAll es = es.map print := by
  induction es with
  | nil => rfl
  | cons e es ih => rw [printAll, ih, List.map_cons]

theorem print_applied : (applied p arg args).print =
    TypeName.applied p.name (arg.print :: args.map fun a => " " ++ a.print) := by
  rw [print, printAll_eq, generic_eq_applied, List.map_map]
  rfl

end Expr

theorem Path.simple (p : Path) : Simple p.name where
  trimmed := p.trimmed
  bare c hc := by
    have apart := p.bare c hc
    simp only [List.mem_cons, not_or] at apart
    exact ⟨apart.1, apart.2.1, apart.2.2.1⟩
  unmarked := by
    rintro ⟨before, after, split⟩
    have mem : '[' ∈ p.name.toList := by
      rw [← split]
      simp
    exact p.bare _ mem (by decide)

/-- The text is an argument just as it stands. -/
structure Whole (name : String) : Prop extends Argument name.toList where
  trimmed : trim name.toList = name.toList

theorem Whole.spaced {name : String} (h : Whole name) :
    Argument (" " ++ name).toList ∧ trim (" " ++ name).toList = name.toList := by
  have blank : Blank [' '] := List.forall_mem_singleton.mpr rfl
  have chars : (" " ++ name).toList = [' '] ++ name.toList ++ [] := by
    rw [String.toList_append, List.append_nil]
    rfl
  rw [chars]
  exact ⟨h.toArgument.padded blank (List.forall_mem_nil _),
    (trim_padded blank (List.forall_mem_nil _) _).trans h.trimmed⟩

theorem Whole.array {name : String} (h : Whole name) : Whole (TypeName.array name) := by
  have argument := h.toArgument.array
  rw [← toList_array] at argument
  refine ⟨argument, ?_⟩
  rw [toList_array]
  apply trim_of_ends
  · intro c hc
    cases chars : name.toList with
    | nil => exact absurd (congrArg trim chars) h.named
    | cons d ds =>
      rw [chars] at hc
      exact head_of_trimmed h.trimmed c (by rw [chars]; exact hc)
  · intro c hc
    rw [show ['[', ']'] = ['['] ++ [']'] from rfl, ← List.append_assoc, List.getLast?_concat] at hc
    obtain rfl := Option.some.inj hc
    rfl

namespace Expr

variable {e e' arg : Expr} {p : Path} {args : List Expr}

theorem spaced_arguments (whole : ∀ a ∈ arg :: args, Whole a.print) :
    ∀ a ∈ arg.print :: args.map fun a => " " ++ a.print, Argument a.toList := by
  intro a ha
  rcases List.mem_cons.mp ha with rfl | ha
  · exact (whole arg List.mem_cons_self).toArgument
  · obtain ⟨b, hb, rfl⟩ := List.mem_map.mp ha
    exact (whole b (List.mem_cons_of_mem arg hb)).spaced.1

theorem whole_print (e : Expr) : Whole e.print := by
  induction e with
  | path p => exact ⟨p.simple.argument p.nonempty, p.trimmed⟩
  | applied p arg args ih =>
    rw [print_applied]
    exact ⟨argument_applied p.simple fun a ha => (spaced_arguments ih a ha).toBracketed,
      trim_applied p.simple _⟩
  | array element ih => exact ih.array

theorem splitArrays_print (e : Expr) : splitArrays e.print = (e.core.print, e.levels) := by
  induction e with
  | path p => exact splitArrays_arrays p.simple.atomic 0
  | applied p arg args _ =>
    have each := @spaced_arguments arg args fun a _ => whole_print a
    rw [core, levels, print_applied]
    exact splitArrays_applied p.simple fun a ha => (each a ha).toBracketed
  | array element ih =>
    rw [print, splitArrays_array ((whole_print element).level 0), ih]
    rfl

theorem parseGeneric_print (p : Path) (arg : Expr) (args : List Expr) :
    parseGeneric (applied p arg args).print = some (p.name, (arg :: args).map print) := by
  have each := @spaced_arguments arg args fun a _ => whole_print a
  have back : args.map ((fun a : String => String.ofList (trim a.toList)) ∘
      fun a => " " ++ a.print) = args.map print := by
    refine List.map_congr_left fun a _ => ?_
    rw [Function.comp, (whole_print a).spaced.2, String.ofList_toList]
  rw [print_applied, parseGeneric_applied p.simple (List.cons_ne_nil _ _) each, List.map_cons,
    List.map_map, back, (whole_print arg).trimmed, String.ofList_toList, List.map_cons]

theorem parseGeneric_path (p : Path) : parseGeneric (path p).print = none := by
  cases parsed : parseGeneric (path p).print with
  | none => rfl
  | some parts => exact absurd rfl (p.simple.bare _ (mem_of_parseGeneric parsed)).1

theorem levels_inj (same : e.print = e'.print) : e.levels = e'.levels := by
  have split := splitArrays_print e
  rw [same, splitArrays_print] at split
  exact (Prod.mk.inj split).2.symm

/-- Different names are printed differently. -/
theorem print_inj (same : e.print = e'.print) : e = e' := by
  have levels := levels_inj same
  induction e generalizing e' with
  | path p =>
    cases e' with
    | path q => exact congrArg path (Path.ext same)
    | applied q arg args =>
      have parsed := parseGeneric_print q arg args
      rw [← same, parseGeneric_path] at parsed
      cases parsed
    | array element => cases levels
  | applied p arg args ih =>
    have parsed := parseGeneric_print p arg args
    rw [same] at parsed
    cases e' with
    | path q =>
      rw [parseGeneric_path] at parsed
      cases parsed
    | applied q arg' args' =>
      rw [parseGeneric_print] at parsed
      obtain ⟨paths, printed⟩ := Prod.mk.inj (Option.some.inj parsed)
      have each : arg :: args = arg' :: args' := by
        rw [← List.forall₂_eq_eq_eq]
        refine (forall₂_of_map_eq printed.symm).imp ?_
        rintro a a' ⟨same, mem, -⟩
        exact ih a mem same (levels_inj same)
      obtain ⟨rfl, rfl⟩ := List.cons.inj each
      rw [Path.ext paths]
    | array element => cases levels
  | array element ih =>
    cases e' with
    | path q => cases levels
    | applied q arg args => cases levels
    | array element' =>
      have inner := array_inj same
      exact congrArg array (ih inner (levels_inj inner))

/-- The canonical name of a tree is taken apart into its marks, its path and its arguments, and
different trees have different names. -/
theorem print_parses_back :
    (∀ e : Expr, splitArrays e.print = (e.core.print, e.levels)) ∧
      (∀ p arg args, parseGeneric (applied p arg args).print =
        some (p.name, (arg :: args).map print)) ∧
      (∀ p, parseGeneric (path p).print = none) ∧ Function.Injective print :=
  ⟨splitArrays_print, parseGeneric_print, parseGeneric_path, fun _ _ same => print_inj same⟩

end Expr

end SchemaCodec.TypeName
