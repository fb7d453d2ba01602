import SchemaCodec.Proofs.TypeName.Cutting

/-! # Applied names

A simple name with arguments in angle brackets after it is taken apart again, provided that the
brackets of every argument match and that no comma stands outside them.
-/

namespace SchemaCodec

theorem trim_of_ends {cs : List Char} (first : ∀ c ∈ cs.head?, isBlank c = false)
    (last : ∀ c ∈ cs.getLast?, isBlank c = false) : trim cs = cs := by
  have keep : ∀ ds : List Char, (∀ c ∈ ds.head?, isBlank c = false) →
      ds.dropWhile isBlank = ds := by
    intro ds solid
    cases ds with
    | nil => rfl
    | cons d ds => rw [List.dropWhile_cons_of_neg (by simp [solid d rfl])]
  rw [trim, keep cs first, keep cs.reverse, List.reverse_reverse]
  rw [List.head?_reverse]
  exact last

theorem head_of_trimmed {cs : List Char} (h : trim cs = cs) :
    ∀ c ∈ cs.head?, isBlank c = false := by
  intro c hc
  cases cs with
  | nil => cases hc
  | cons d ds =>
    obtain rfl := Option.some.inj hc
    cases blank : isBlank d with
    | false => rfl
    | true =>
      have front : Blank [d] := List.forall_mem_singleton.mpr blank
      have shorter := trim_padded front (List.forall_mem_nil _) ds
      rw [List.append_nil, List.singleton_append] at shorter
      obtain ⟨front, back, -, -, whole⟩ := exists_trim ds
      have count := congrArg List.length whole
      rw [← shorter, h, List.length_append, List.length_append, List.length_cons] at count
      omega

namespace TypeName

/-- The name has no blanks around it, and no character or mark in it that names are cut at. -/
structure Simple (name : String) : Prop where
  trimmed : trim name.toList = name.toList
  bare : ∀ c ∈ name.toList, c ≠ '<' ∧ c ≠ '>' ∧ c ≠ ','
  unmarked : ¬ ['[', ']'] <:+: name.toList

def applied (base : String) (args : List String) : String :=
  base ++ "<" ++ ",".intercalate args ++ ">"

/-- A scan that has reached the depth passes over the text without a cut in it. -/
def Cutter.Passes (k : Cutter) (depth : Nat) (cs : List Char) : Prop :=
  ∀ tail, k.scan 0 depth (cs ++ tail) =
    let further := k.scan 0 depth tail
    (cs ++ further.1, further.2)

/-- The angle brackets of the text match, and shield all that is between them. -/
structure Bracketed (cs : List Char) : Prop where
  shielded : ∀ delimiter depth, (angled delimiter).Passes (depth + 1) cs
  level : ∀ depth, level depth cs = depth

/-- The text can stand among the arguments of a generic name. -/
structure Argument (cs : List Char) : Prop extends Bracketed cs where
  uncut : argumentCutter.Passes 0 cs
  named : trim cs ≠ []

variable {k : Cutter} {depth : Nat} {cs ds : List Char} {base : String} {args : List String}

theorem Simple.atomic {name : String} (h : Simple name) : Atomic name := by
  have opens : ∀ cs : List Char, cs ⊆ name.toList → cs.count '<' = 0 := fun cs sub =>
    List.count_eq_zero.mpr fun mem => (h.bare _ (sub mem)).1 rfl
  have closes : ∀ cs : List Char, cs ⊆ name.toList → cs.count '>' = 0 := fun cs sub =>
    List.count_eq_zero.mpr fun mem => (h.bare _ (sub mem)).2.1 rfl
  refine ⟨h.trimmed, ?_, ?_, ?_⟩
  · intro before after split
    rw [closes before (split ▸ List.subset_append_left before after)]
    exact Nat.zero_le _
  · rw [opens _ (List.Subset.refl _), closes _ (List.Subset.refl _)]
  · intro before after split
    exact absurd ⟨before, after, by rw [split]; simp⟩ h.unmarked

/-! ## Passing over text -/

theorem Cutter.Passes.scan_eq (h : k.Passes depth cs) : k.scan 0 depth cs = (cs, []) := by
  have all := h []
  rw [List.append_nil, scan] at all
  rw [all]
  simp

theorem Cutter.Passes.append (h : k.Passes depth cs) (h' : k.Passes depth ds) :
    k.Passes depth (cs ++ ds) := by
  intro tail
  rw [List.append_assoc, h, h']
  simp only [List.append_assoc]

theorem Cutter.passes_plain
    (plain : ∀ c ∈ cs, c ≠ k.opening ∧ c ≠ k.closing)
    (quiet : ∀ c ∈ cs, ∀ rest, ¬ (depth = 0 ∧ k.delimiter.isPrefixOf (c :: rest) = true)) :
    k.Passes depth cs := by
  intro tail
  induction cs with
  | nil => rfl
  | cons c cs ih =>
    obtain ⟨opens, closes⟩ := plain c List.mem_cons_self
    have stays : k.step depth c = depth := by
      rw [step, if_neg opens, if_neg closes]
    rw [List.cons_append, scan_keep (quiet c List.mem_cons_self _), stays,
      ih (fun d hd => plain d (List.mem_cons_of_mem c hd))
        fun d hd => quiet d (List.mem_cons_of_mem c hd)]
    rfl

theorem Cutter.Passes.enclose {delimiter : List Char}
    (h : (angled delimiter).Passes (depth + 1) cs)
    (opens : ∀ rest, ¬ (depth = 0 ∧ delimiter.isPrefixOf ('<' :: rest) = true)) :
    (angled delimiter).Passes depth ('<' :: (cs ++ ['>'])) := by
  intro tail
  have inside : ∀ rest, ¬ (depth + 1 = 0 ∧
      (angled delimiter).delimiter.isPrefixOf ('>' :: rest) = true) := fun _ no => by omega
  have down : (angled delimiter).step depth '<' = depth + 1 := rfl
  have up : (angled delimiter).step (depth + 1) '>' = depth := rfl
  rw [List.cons_append, scan_keep (opens _), down, List.append_assoc, h, List.singleton_append,
    scan_keep (inside _), up]
  simp

theorem bracketed_of_plain (plain : ∀ c ∈ cs, c ≠ '<' ∧ c ≠ '>') : Bracketed cs := by
  refine ⟨fun delimiter depth => Cutter.passes_plain plain fun _ _ _ no => by omega, ?_⟩
  intro depth
  rw [TypeName.level]
  induction cs with
  | nil => rfl
  | cons c cs ih =>
    obtain ⟨opens, closes⟩ := plain c List.mem_cons_self
    have stays : arrayCutter.step depth c = depth := by
      rw [Cutter.step]
      simp [arrayCutter, opens, closes]
    rw [List.foldl_cons, stays]
    exact ih fun d hd => plain d (List.mem_cons_of_mem c hd)

theorem Bracketed.append (h : Bracketed cs) (h' : Bracketed ds) : Bracketed (cs ++ ds) := by
  refine ⟨fun delimiter depth => (h.shielded delimiter depth).append (h'.shielded delimiter depth),
    fun depth => ?_⟩
  have first := h.level depth
  have second := h'.level depth
  rw [TypeName.level] at first second ⊢
  rw [List.foldl_append, first, second]

theorem Bracketed.enclose (h : Bracketed cs) : Bracketed ('<' :: (cs ++ ['>'])) := by
  refine ⟨fun delimiter depth => (h.shielded delimiter (depth + 1)).enclose fun _ no => by omega,
    fun depth => ?_⟩
  have inner := h.level (depth + 1)
  have down : arrayCutter.step depth '<' = depth + 1 := rfl
  have up : arrayCutter.step (depth + 1) '>' = depth := rfl
  rw [TypeName.level] at inner ⊢
  rw [List.foldl_cons, down, List.foldl_append, inner, List.foldl_cons, up, List.foldl_nil]

theorem bracketed_join {pieces : List (List Char)} (each : ∀ p ∈ pieces, Bracketed p) :
    Bracketed (List.intercalate [','] pieces) := by
  induction pieces with
  | nil => exact bracketed_of_plain fun _ no => absurd no List.not_mem_nil
  | cons p ps ih =>
    have rest := ih fun q hq => each q (List.mem_cons_of_mem p hq)
    cases ps with
    | nil =>
      rw [List.intercalate_singleton]
      exact each p List.mem_cons_self
    | cons q qs =>
      rw [List.intercalate_cons_cons]
      exact ((each p List.mem_cons_self).append (bracketed_of_plain (by simp))).append rest

theorem Simple.bracketed {name : String} (simple : Simple name) : Bracketed name.toList :=
  bracketed_of_plain fun c hc => ⟨(simple.bare c hc).1, (simple.bare c hc).2.1⟩

theorem Simple.uncut {name : String} (simple : Simple name) :
    argumentCutter.Passes 0 name.toList := by
  refine Cutter.passes_plain (fun c hc => ⟨(simple.bare c hc).1, (simple.bare c hc).2.1⟩) ?_
  rintro c hc rest ⟨-, starts⟩
  obtain ⟨more, split⟩ := List.isPrefixOf_iff_prefix.mp starts
  exact (simple.bare c hc).2.2 (List.cons.inj split).1.symm

theorem Simple.argument {name : String} (simple : Simple name) (nonempty : name.toList ≠ []) :
    Argument name.toList :=
  ⟨simple.bracketed, simple.uncut, simple.trimmed.symm ▸ nonempty⟩

theorem ne_of_isBlank {c d : Char} (blank : isBlank c = true) (solid : isBlank d = false) :
    c ≠ d := by
  rintro rfl
  cases solid.symm.trans blank

theorem passes_blank (blank : Blank cs) : argumentCutter.Passes 0 cs := by
  refine Cutter.passes_plain (fun c hc =>
    ⟨ne_of_isBlank (blank c hc) rfl, ne_of_isBlank (blank c hc) rfl⟩) ?_
  rintro c hc rest ⟨-, starts⟩
  obtain ⟨more, split⟩ := List.isPrefixOf_iff_prefix.mp starts
  exact ne_of_isBlank (blank c hc) rfl (List.cons.inj split).1.symm

theorem Argument.padded {front back : List Char} (hf : Blank front) (hb : Blank back)
    (h : Argument cs) : Argument (front ++ cs ++ back) := by
  have bracketed : ∀ {ds}, Blank ds → Bracketed ds := fun blank =>
    bracketed_of_plain fun c hc => ⟨ne_of_isBlank (blank c hc) rfl, ne_of_isBlank (blank c hc) rfl⟩
  exact ⟨((bracketed hf).append h.toBracketed).append (bracketed hb),
    ((passes_blank hf).append h.uncut).append (passes_blank hb), trim_padded hf hb cs ▸ h.named⟩

theorem Argument.array (h : Argument cs) : Argument (cs ++ ['[', ']']) := by
  have uncut : argumentCutter.Passes 0 ['[', ']'] := by
    refine Cutter.passes_plain (by simp [argumentCutter]) ?_
    rintro c hc rest ⟨-, starts⟩
    obtain ⟨more, split⟩ := List.isPrefixOf_iff_prefix.mp starts
    obtain rfl := (List.cons.inj split).1
    exact absurd hc (by decide)
  refine ⟨h.toBracketed.append (bracketed_of_plain (by simp)), h.uncut.append uncut, ?_⟩
  intro empty
  obtain ⟨front, back, hf, hb, split⟩ := exists_trim (cs ++ ['[', ']'])
  rw [empty, List.append_nil] at split
  have mark : ']' ∈ front ++ back := by
    rw [← split]
    simp
  rcases List.mem_append.mp mark with mem | mem
  · exact absurd (hf _ mem) (by decide)
  · exact absurd (hb _ mem) (by decide)

/-! ## Applied names -/

theorem toList_applied (base : String) (args : List String) :
    (applied base args).toList =
      base.toList ++ '<' :: (List.intercalate [','] (args.map String.toList) ++ ['>']) := by
  rw [applied, String.toList_append, String.toList_append, String.toList_append,
    String.toList_intercalate]
  simp

theorem generic_eq_applied (base : String) (arg : String) (args : List String) :
    generic base (arg :: args) = applied base (arg :: args.map (" " ++ ·)) := by
  have spaced : ∀ (p : List Char) (ps : List (List Char)),
      List.intercalate [',', ' '] (p :: ps) =
        List.intercalate [','] (p :: ps.map (' ' :: ·)) := by
    intro p ps
    induction ps generalizing p with
    | nil => rw [List.map_nil, List.intercalate_singleton, List.intercalate_singleton]
    | cons q qs ih =>
      have inner := ih q
      cases qs with
      | nil =>
        simp [List.intercalate_cons_cons, List.intercalate_singleton]
      | cons r rs =>
        rw [List.map_cons] at inner
        rw [List.intercalate_cons_cons, inner, List.map_cons, List.map_cons,
          List.intercalate_cons_cons, List.intercalate_cons_cons, List.intercalate_cons_cons]
        simp
  have lists : args.map (String.toList ∘ (" " ++ ·)) = (args.map String.toList).map (' ' :: ·) := by
    rw [List.map_map]
    refine List.map_congr_left fun a _ => ?_
    exact String.toList_append
  rw [← String.toList_inj, toList_applied, generic, String.toList_append, String.toList_append,
    String.toList_append, String.toList_intercalate, List.map_cons, List.map_cons, List.map_map,
    lists, ← spaced]
  simp

theorem bracketed_arguments (each : ∀ a ∈ args, Bracketed a.toList) :
    Bracketed (List.intercalate [','] (args.map String.toList)) := by
  refine bracketed_join fun p hp => ?_
  obtain ⟨a, ha, rfl⟩ := List.mem_map.mp hp
  exact each a ha

theorem passes_arguments (each : ∀ a ∈ args, Bracketed a.toList) {delimiter : List Char}
    (other : ∀ rest, delimiter.isPrefixOf ('<' :: rest) = false) :
    (angled delimiter).Passes 0
      ('<' :: (List.intercalate [','] (args.map String.toList) ++ ['>'])) :=
  ((bracketed_arguments each).shielded delimiter 0).enclose fun rest starts =>
    Bool.false_ne_true ((other rest).symm.trans starts.2)

theorem bracketed_applied (simple : Simple base) (each : ∀ a ∈ args, Bracketed a.toList) :
    Bracketed (applied base args).toList := by
  rw [toList_applied]
  exact simple.bracketed.append (bracketed_arguments each).enclose

theorem trim_applied (simple : Simple base) (args : List String) :
    trim (applied base args).toList = (applied base args).toList := by
  rw [toList_applied]
  apply trim_of_ends
  · intro c hc
    cases chars : base.toList with
    | nil =>
      rw [chars] at hc
      obtain rfl := Option.some.inj hc
      rfl
    | cons d ds =>
      rw [chars] at hc
      exact head_of_trimmed simple.trimmed c (by rw [chars]; exact hc)
  · intro c hc
    rw [← List.cons_append, ← List.append_assoc, List.getLast?_concat] at hc
    obtain rfl := Option.some.inj hc
    rfl

theorem splitArrays_applied (simple : Simple base) (each : ∀ a ∈ args, Bracketed a.toList) :
    splitArrays (applied base args) = (applied base args, 0) := by
  have atomic := simple.atomic
  have inside : arrayCutter.scan 0 0
      ('<' :: (List.intercalate [','] (args.map String.toList) ++ ['>'])) = _ :=
    (passes_arguments each fun _ => rfl).scan_eq
  have apart : ('<' :: (List.intercalate [','] (args.map String.toList) ++ ['>'])).head? ≠
      some ']' := by simp
  have scanned := atomic.scan_append apart
  rw [inside, ← toList_applied] at scanned
  rw [splitArrays_eq, scanned]
  dsimp only
  rw [← toList_applied, trim_applied simple, String.ofList_toList]
  rfl

theorem argument_applied (simple : Simple base) (each : ∀ a ∈ args, Bracketed a.toList) :
    Argument (applied base args).toList := by
  refine ⟨bracketed_applied simple each, ?_, ?_⟩
  · rw [toList_applied]
    exact simple.uncut.append (passes_arguments each fun _ => rfl)
  · rw [trim_applied simple, toList_applied]
    simp

theorem scan_join {p : List Char} {ps : List (List Char)}
    (each : ∀ q ∈ p :: ps, argumentCutter.Passes 0 q) :
    argumentCutter.scan 0 0 (List.intercalate [','] (p :: ps)) = (p, ps) := by
  induction ps generalizing p with
  | nil =>
    rw [List.intercalate_singleton]
    exact (each p List.mem_cons_self).scan_eq
  | cons q qs ih =>
    have rest := ih fun r hr => each r (List.mem_cons_of_mem p hr)
    have comma : argumentCutter.delimiter.isPrefixOf
        (',' :: List.intercalate [','] (q :: qs)) = true := rfl
    have skip : argumentCutter.delimiter.length - 1 = 0 := rfl
    rw [List.intercalate_cons_cons, List.append_assoc, each p List.mem_cons_self,
      List.singleton_append, Cutter.scan_cut comma, skip, rest]
    simp

theorem mem_of_parseGeneric {name : String} {parts : String × List String}
    (h : parseGeneric name = some parts) : '<' ∈ name.toList := by
  by_contra none
  have gone : name.toList.dropWhile (· ≠ '<') = [] := by
    refine List.dropWhile_eq_nil_iff.mpr fun c hc => ?_
    rw [decide_eq_true_eq]
    rintro rfl
    exact none hc
  rw [parseGeneric, gone] at h
  cases h

/-- Cutting takes away nothing but commas. -/
theorem exists_mem_scan {c : Char} {cs : List Char} (mem : c ∈ cs) (solid : c ≠ ',')
    (depth : Nat) : ∃ p ∈ (argumentCutter.scan 0 depth cs).1 :: (argumentCutter.scan 0 depth cs).2,
      c ∈ p := by
  induction cs generalizing depth with
  | nil => cases mem
  | cons d cs ih =>
    by_cases cut : depth = 0 ∧ argumentCutter.delimiter.isPrefixOf (d :: cs) = true
    · obtain ⟨rfl, starts⟩ := cut
      obtain ⟨_, comma⟩ := List.isPrefixOf_iff_prefix.mp starts
      obtain ⟨rfl, -⟩ := List.cons.inj comma
      obtain ⟨p, hp, inside⟩ := ih ((List.mem_cons.mp mem).resolve_left solid) 0
      rw [Cutter.scan_cut starts]
      exact ⟨p, List.mem_cons_of_mem _ hp, inside⟩
    · rw [Cutter.scan_keep cut]
      rcases List.mem_cons.mp mem with rfl | mem
      · exact ⟨_, List.mem_cons_self, List.mem_cons_self⟩
      · obtain ⟨p, hp, inside⟩ := ih mem (argumentCutter.step depth d)
        rcases List.mem_cons.mp hp with rfl | hp
        · exact ⟨_, List.mem_cons_self, List.mem_cons_of_mem d inside⟩
        · exact ⟨p, List.mem_cons_of_mem _ hp, inside⟩

theorem exists_mem_argument {name : String} {parts : String × List String} {c : Char}
    {front inner : List Char} (h : parseGeneric name = some parts)
    (split : name.toList = front ++ '<' :: (inner ++ ['>'])) (first : '<' ∉ front) (mem : c ∈ inner)
    (comma : c ≠ ',') (solid : isBlank c = false) : ∃ a ∈ parts.2, c ∈ a.toList := by
  have before : ∀ d ∈ front, decide (d ≠ '<') = true := fun d hd =>
    decide_eq_true fun opens => first (opens ▸ hd)
  rw [parseGeneric, split, List.dropWhile_append_of_pos before,
    List.dropWhile_cons_of_neg (by decide)] at h
  dsimp only at h
  rw [List.reverse_append, List.reverse_singleton, List.singleton_append] at h
  simp only [List.reverse_reverse] at h
  obtain ⟨p, hp, inside⟩ := exists_mem_scan mem comma 0
  obtain ⟨back, rest, blank, blank', padded⟩ := exists_trim p
  have kept : c ∈ trim p := by
    rw [padded, List.mem_append, List.mem_append] at inside
    rcases inside with (inside | inside) | inside
    · exact absurd (blank c inside) (by simp [solid])
    · exact inside
    · exact absurd (blank' c inside) (by simp [solid])
  have piece : trim p ∈ splitNonempty inner argumentCutter := by
    refine List.mem_filter.mpr ⟨List.mem_map_of_mem hp, decide_eq_true fun empty => ?_⟩
    rw [empty] at kept
    cases kept
  split at h
  · cases h
  · next args _ =>
    obtain rfl := Option.some.inj h
    exact ⟨_, List.mem_map_of_mem piece, by rwa [String.toList_ofList]⟩

theorem simple_of_spelling {name : String} {p : Primitive}
    (h : Primitive.ofSpelling? name = some p) : Simple name ∧ name.toList ≠ [] := by
  have solid : ∀ s ∈ spelled, (',' ∉ s.toList ∧ s.toList ≠ []) ∧
      ',' ∉ ("System." ++ s).toList ∧ ("System." ++ s).toList ≠ [] := by decide +kernel
  have bare := unbracketed_of_spelling h
  simp only [unbracketed, Bool.and_eq_true, List.all_eq_true, decide_eq_true_eq] at bare
  have listed : ',' ∉ name.toList ∧ name.toList ≠ [] := by
    obtain ⟨short, long⟩ := solid _ (mem_spelled h)
    rcases dropNamespace_cases name with same | same
    · rwa [same]
    · rwa [same]
  refine ⟨⟨bare.2, fun c hc => ⟨(bare.1 c hc).1.1, (bare.1 c hc).1.2, ?_⟩, ?_⟩, listed.2⟩
  · rintro rfl
    exact listed.1 hc
  · rintro ⟨before, after, split⟩
    have mem : '[' ∈ name.toList := by
      rw [← split]
      simp
    exact (bare.1 _ mem).2 rfl

theorem wellFormed_of_unbracketed {s : String} (bare : unbracketed s = true)
    (foreign : Primitive.ofSpelling? s = none) : WellFormed s ∧ '<' ∉ s.toList := by
  refine ⟨⟨atomic_of_unbracketed bare, foreign⟩, fun mem => ?_⟩
  simp only [unbracketed, Bool.and_eq_true, List.all_eq_true, decide_eq_true_eq] at bare
  exact (bare.1 _ mem).1.1 rfl

theorem simple_of_wellFormed {name : String} (h : WellFormed name) (closed : '<' ∉ name.toList)
    (whole : ',' ∉ name.toList) : Simple name := by
  have shut : '>' ∉ name.toList := by
    rw [← List.count_eq_zero, h.balanced, List.count_eq_zero]
    exact closed
  have apart : ∀ {c d : Char}, c ∈ name.toList → d ∉ name.toList → c ≠ d := by
    rintro c _ mem no rfl
    exact no mem
  refine ⟨h.trimmed, fun c hc => ⟨apart hc closed, apart hc shut, apart hc whole⟩, ?_⟩
  rintro ⟨before, after, split⟩
  have outside : before.count '<' = 0 := by
    rw [List.count_eq_zero]
    intro mem
    refine closed ?_
    rw [← split]
    simp [mem]
  have inside := h.plain before after (by rw [← split]; simp)
  omega

theorem not_mem_of_spelling {name : String} {p : Primitive}
    (h : Primitive.ofSpelling? name = some p) : '<' ∉ name.toList :=
  fun mem => ((simple_of_spelling h).1.bare _ mem).1 rfl

theorem parseGeneric_nil (simple : Simple base) : parseGeneric (applied base []) = none := by
  have bare : ∀ c ∈ base.toList, decide (c ≠ '<') = true := fun c hc => by
    simp [(simple.bare c hc).1]
  rw [parseGeneric, toList_applied, List.dropWhile_append_of_pos bare]
  rfl

/-- What is found in an application, if anything is, are the base and those of the pieces between the
commas that are not blank. -/
theorem parts_of_applied (bare : '<' ∉ base.toList)
    (each : ∀ a ∈ args, argumentCutter.Passes 0 a.toList) (nonempty : args ≠ []) :
    parseGeneric (applied base args) =
      if (args.map fun a => trim a.toList).filter (· ≠ []) = [] then none
      else some (String.ofList (trim base.toList),
        ((args.map fun a => trim a.toList).filter (· ≠ [])).map String.ofList) := by
  have plain : ∀ c ∈ base.toList, decide (c ≠ '<') = true := by
    intro c hc
    rw [decide_eq_true_eq]
    rintro rfl
    exact bare hc
  have apart : splitNonempty (List.intercalate [','] (args.map String.toList)) argumentCutter =
      (args.map fun a => trim a.toList).filter (· ≠ []) := by
    obtain ⟨a, as, rfl⟩ := List.exists_cons_of_ne_nil nonempty
    have pieces : ∀ q ∈ a.toList :: as.map String.toList, argumentCutter.Passes 0 q := by
      intro q hq
      rw [← List.map_cons] at hq
      obtain ⟨b, hb, rfl⟩ := List.mem_map.mp hq
      exact each b hb
    rw [splitNonempty, if_neg (by decide), splitNested, Cutter.cut, if_neg (by decide),
      List.map_cons, scan_join pieces]
    dsimp only
    rw [← List.map_cons, List.map_map]
    rfl
  have first : ∀ rest : List Char, ('<' :: rest).dropWhile (· ≠ '<') = '<' :: rest ∧
      ('<' :: rest).takeWhile (· ≠ '<') = [] := fun rest => ⟨rfl, rfl⟩
  rw [parseGeneric, toList_applied, List.dropWhile_append_of_pos plain,
    List.takeWhile_append_of_pos plain, (first _).1, (first _).2]
  dsimp only
  rw [List.reverse_append, List.reverse_singleton, List.singleton_append]
  simp only [List.reverse_reverse, apart, List.append_nil]
  split
  · next none => rw [if_pos none]
  · next some_ => rw [if_neg some_]

theorem parseGeneric_applied (simple : Simple base) (nonempty : args ≠ [])
    (each : ∀ a ∈ args, Argument a.toList) :
    parseGeneric (applied base args) =
      some (base, args.map fun a => String.ofList (trim a.toList)) := by
  have named : (args.map fun a => trim a.toList).filter (· ≠ []) =
      args.map fun a => trim a.toList := by
    rw [List.filter_eq_self]
    intro piece hpiece
    obtain ⟨a, ha, rfl⟩ := List.mem_map.mp hpiece
    simpa using (each a ha).named
  rw [parts_of_applied (fun mem => (simple.bare _ mem).1 rfl) (fun a ha => (each a ha).uncut)
    nonempty, named, if_neg (mt List.map_eq_nil_iff.mp nonempty), simple.trimmed,
    String.ofList_toList, List.map_map]
  rfl

end TypeName

end SchemaCodec
