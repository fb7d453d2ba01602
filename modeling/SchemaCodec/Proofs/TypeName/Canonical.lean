import SchemaCodec.Proofs.TypeName.Arguments

/-! # Canonical names of generic types

The canonical name of a generic type is taken apart into its base and its arguments again, provided
that no comma stands outside the brackets of an argument. Arguments without a name are lost.
-/

namespace SchemaCodec.TypeName

/-- No comma stands outside the angle brackets of the name. -/
def Undivided (name : String) : Prop :=
  ∀ before after, name.toList = before ++ ',' :: after → before.count '>' < before.count '<'

/-- The name can be cut out of a canonical name of which it is an argument. -/
structure Piece (name : String) : Prop where
  uncut : argumentCutter.Passes 0 name.toList
  trimmed : trim name.toList = name.toList

variable {base : String} {depth : Nat} {args args' names : List String}

theorem trim_arrays (h : Atomic base) (depth : Nat) :
    trim (arrays base depth).toList = (arrays base depth).toList := by
  cases depth with
  | zero => exact h.trimmed
  | succ depth =>
    rw [toList_arrays, marks_succ]
    apply trim_of_ends
    · intro c hc
      cases chars : base.toList with
      | nil =>
        rw [chars, List.nil_append, ← marks_succ] at hc
        obtain rfl := Option.some.inj hc
        rfl
      | cons d ds =>
        rw [chars] at hc
        exact head_of_trimmed h.trimmed c (by rw [chars]; exact hc)
    · intro c hc
      rw [← List.append_assoc, show ['[', ']'] = ['['] ++ [']'] from rfl, ← List.append_assoc,
        List.getLast?_concat] at hc
      obtain rfl := Option.some.inj hc
      rfl

theorem passes_marks (depth : Nat) : argumentCutter.Passes 0 (marks depth) := by
  have char : ∀ c ∈ marks depth, c = '[' ∨ c = ']' := by
    induction depth with
    | zero => exact List.forall_mem_nil _
    | succ depth ih =>
      exact List.forall_mem_cons.mpr ⟨.inl rfl, List.forall_mem_cons.mpr ⟨.inr rfl, ih⟩⟩
  refine Cutter.passes_plain ?_ ?_
  · intro c hc
    rcases char c hc with rfl | rfl <;> decide
  · rintro c hc rest ⟨-, starts⟩
    obtain ⟨more, split⟩ := List.isPrefixOf_iff_prefix.mp starts
    obtain rfl : ',' = c := (List.cons.inj split).1
    rcases char _ hc with no | no <;> cases no

theorem Atomic.piece (h : Atomic base) (undivided : Undivided (arrays base depth)) :
    Piece (arrays base depth) := by
  refine ⟨?_, trim_arrays h depth⟩
  have uncut : argumentCutter.Passes 0 base.toList := by
    intro tail
    have scanned := @TypeName.scan_append [','] 0 base.toList tail
      (fun before after split => by simpa using h.closed before after split) ?_
    · rwa [h.balanced, Nat.zero_add, Nat.sub_self] at scanned
    · intro before after split nonempty starts
      obtain ⟨c, after, rfl⟩ := List.exists_cons_of_ne_nil nonempty
      obtain ⟨rest, same⟩ := List.isPrefixOf_iff_prefix.mp starts
      obtain ⟨rfl, -⟩ := List.cons.inj same
      rw [Nat.zero_add]
      refine undivided before (after ++ marks depth) ?_
      rw [toList_arrays, split, List.append_assoc]
      rfl
  rw [toList_arrays]
  exact uncut.append (passes_marks depth)

theorem exists_spaced (nonempty : args ≠ []) (each : ∀ a ∈ args, Piece a) :
    ∃ spaced, generic base args = applied base spaced ∧ spaced ≠ [] ∧
      (∀ a ∈ spaced, argumentCutter.Passes 0 a.toList) ∧
      (spaced.map fun a => trim a.toList) = args.map String.toList := by
  obtain ⟨a, as, rfl⟩ := List.exists_cons_of_ne_nil nonempty
  have blank : Blank [' '] := List.forall_mem_singleton.mpr rfl
  have chars : ∀ b : String, (" " ++ b).toList = [' '] ++ b.toList ++ [] := fun b => by
    rw [String.toList_append, List.append_nil]
    rfl
  refine ⟨_, generic_eq_applied base a as, List.cons_ne_nil _ _, ?_, ?_⟩
  · intro b hb
    rcases List.mem_cons.mp hb with rfl | hb
    · exact (each b List.mem_cons_self).uncut
    · obtain ⟨c, hc, rfl⟩ := List.mem_map.mp hb
      rw [chars, List.append_nil]
      exact (passes_blank blank).append (each c (List.mem_cons_of_mem a hc)).uncut
  · rw [List.map_cons, List.map_cons, (each a List.mem_cons_self).trimmed, List.map_map]
    refine congrArg (a.toList :: ·) (List.map_congr_left fun b hb => ?_)
    rw [Function.comp, chars, trim_padded blank (List.forall_mem_nil _),
      (each b (List.mem_cons_of_mem a hb)).trimmed]

theorem parts_of_generic {parts : String × List String} (bare : '<' ∉ base.toList)
    (trimmed : trim base.toList = base.toList) (nonempty : args ≠ [])
    (each : ∀ a ∈ args, Piece a) (h : parseGeneric (generic base args) = some parts) :
    parts = (base, args.filter (· ≠ "")) := by
  obtain ⟨spaced, same, some_, uncut, pieces⟩ := @exists_spaced base _ nonempty each
  rw [same, parts_of_applied bare uncut some_, pieces] at h
  split at h
  · cases h
  · obtain rfl := Option.some.inj h
    have named : (args.map String.toList).filter (· ≠ []) =
        (args.filter (· ≠ "")).map String.toList := by
      rw [List.filter_map]
      refine congrArg _ (List.filter_congr fun a _ => ?_)
      simp
    rw [trimmed, String.ofList_toList, named, List.map_map]
    refine congrArg _ ((List.map_congr_left fun a _ => ?_).trans (List.map_id' _))
    exact String.ofList_toList

theorem applied_inj (nonempty : args ≠ []) (nonempty' : args' ≠ [])
    (each : ∀ a ∈ args, argumentCutter.Passes 0 a.toList)
    (each' : ∀ a ∈ args', argumentCutter.Passes 0 a.toList)
    (same : applied base args = applied base args') : args = args' := by
  have cut : ∀ {args : List String}, args ≠ [] →
      (∀ a ∈ args, argumentCutter.Passes 0 a.toList) →
      ∃ p ps, args.map String.toList = p :: ps ∧ argumentCutter.scan 0 0
        (List.intercalate [','] (args.map String.toList)) = (p, ps) := by
    intro args nonempty each
    obtain ⟨a, as, rfl⟩ := List.exists_cons_of_ne_nil nonempty
    refine ⟨a.toList, as.map String.toList, rfl, ?_⟩
    rw [List.map_cons, scan_join]
    intro q hq
    rw [← List.map_cons] at hq
    obtain ⟨b, hb, rfl⟩ := List.mem_map.mp hq
    exact each b hb
  obtain ⟨p, ps, pieces, scanned⟩ := cut nonempty each
  obtain ⟨p', ps', pieces', scanned'⟩ := cut nonempty' each'
  have inner := congrArg String.toList same
  rw [toList_applied, toList_applied, List.append_cancel_left_eq, List.cons.injEq,
    List.append_cancel_right_eq] at inner
  rw [inner.2, scanned'] at scanned
  obtain ⟨rfl, rfl⟩ := Prod.mk.inj scanned
  exact List.map_injective_iff.mpr (fun _ _ => String.toList_injective) (pieces.trans pieces'.symm)

theorem generic_inj (nonempty : args ≠ []) (nonempty' : args' ≠ []) (each : ∀ a ∈ args, Piece a)
    (each' : ∀ a ∈ args', Piece a) (same : generic base args = generic base args') :
    args = args' := by
  obtain ⟨spaced, spelled, some_, uncut, pieces⟩ := @exists_spaced base _ nonempty each
  obtain ⟨spaced', spelled', some', uncut', pieces'⟩ := @exists_spaced base _ nonempty' each'
  rw [spelled, spelled'] at same
  obtain rfl := applied_inj some_ some' uncut uncut' same
  exact List.map_injective_iff.mpr (fun _ _ => String.toList_injective) (pieces.symm.trans pieces')

end SchemaCodec.TypeName
