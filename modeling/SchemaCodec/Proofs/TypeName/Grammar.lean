import SchemaCodec.Proofs.TypeName.Trees

/-! # The grammar of names

A name is a path, possibly with names in angle brackets after it, and with marks of sequences at the
end. A name that is taken apart need not be one: it is read by a wider grammar, which passes over
blank arguments and over whatever stands after a mark.
-/

namespace SchemaCodec.TypeName

/-- A grammar of names: what stands for a base and what in front of arguments, what may stand
between commas in place of an argument, and what may follow a mark. -/
structure Grammar where
  base : List Char → Prop
  head : List Char → Prop
  gap : List Char → Prop
  rest : List Char → Prop

namespace Grammar

/-- Text of the grammar, with blanks around its parts. At least one argument is not left out. -/
inductive Phrase (G : Grammar) : List Char → Prop

  | base {cs : List Char} : G.base cs → Phrase G cs

  | applied {head blanks : List Char} {pieces : List (List Char)} : G.head head → Blank blanks →
      (∃ p ∈ pieces, ¬ G.gap p) → (∀ p ∈ pieces, ¬ G.gap p → Phrase G p) →
      Phrase G (head ++ blanks ++ '<' :: (List.intercalate [','] pieces ++ ['>']))

  | marked {cs rest : List Char} : Phrase G cs → G.rest rest →
      Phrase G (cs ++ '[' :: ']' :: rest)

  | padded {front cs back : List Char} : Blank front → Blank back → Phrase G cs →
      Phrase G (front ++ cs ++ back)

def IsPath (cs : List Char) : Prop := ∃ p : Path, p.name.toList = cs

/-- The grammar of canonical names, with blanks around tokens. -/
def documented : Grammar := ⟨IsPath, IsPath, fun _ => False, Blank⟩

/-- The grammar by which names are taken apart. -/
def tolerant : Grammar := ⟨IsPath, IsPath, Blank, fun _ => True⟩

end Grammar

def Cutter.pieces (k : Cutter) (cs : List Char) : List (List Char) :=
  (k.scan 0 0 cs).1 :: (k.scan 0 0 cs).2

namespace Grammar

/-- No piece of the text is passed over but with leave: what follows a mark is a rest, a blank
argument is a gap, and so it is within the arguments. -/
inductive Splits (gap rest : List Char → Prop) : List Char → Prop

  | intro {cs : List Char} : (∀ p ∈ (arrayCutter.scan 0 0 cs).2, rest p) →
      (∀ head inner, trim (arrayCutter.scan 0 0 cs).1 = head ++ '<' :: (inner ++ ['>']) →
        '<' ∉ head → ∀ p ∈ argumentCutter.pieces inner, Blank p → gap p) →
      (∀ head inner, trim (arrayCutter.scan 0 0 cs).1 = head ++ '<' :: (inner ++ ['>']) →
        '<' ∉ head → ∀ p ∈ argumentCutter.pieces inner, ¬ Blank p → Splits gap rest (trim p)) →
      Splits gap rest cs

abbrev Fits (G : Grammar) : List Char → Prop := Splits G.gap G.rest

end Grammar

variable {G H : Grammar} {cs : List Char}

/-! ## Cutting and joining -/

theorem intercalate_append {α : Type} (sep front p : List α) (ps : List (List α)) :
    List.intercalate sep ((front ++ p) :: ps) = front ++ List.intercalate sep (p :: ps) := by
  cases ps with
  | nil => rw [List.intercalate_singleton, List.intercalate_singleton]
  | cons q qs =>
    rw [List.intercalate_cons_cons, List.intercalate_cons_cons, List.append_assoc,
      List.append_assoc, List.append_assoc]

theorem Cutter.intercalate_scan {k : Cutter} (solid : k.delimiter ≠ []) (skip depth : Nat)
    (cs : List Char) :
    List.intercalate k.delimiter ((k.scan skip depth cs).1 :: (k.scan skip depth cs).2) =
      cs.drop skip := by
  induction cs generalizing skip depth with
  | nil => cases skip <;> simp [scan]
  | cons c cs ih =>
    cases skip with
    | succ skip => rw [scan, ih, List.drop_succ_cons]
    | zero =>
      by_cases cut : depth = 0 ∧ k.delimiter.isPrefixOf (c :: cs) = true
      · obtain ⟨rfl, starts⟩ := cut
        rw [scan_cut starts]
        dsimp only
        rw [List.intercalate_cons_cons, ih, List.nil_append]
        obtain ⟨rest, whole⟩ := List.isPrefixOf_iff_prefix.mp starts
        obtain ⟨d, ds, delimiter⟩ := List.exists_cons_of_ne_nil solid
        rw [delimiter, List.cons_append] at whole
        obtain ⟨rfl, rfl⟩ := List.cons.inj whole
        rw [delimiter, List.length_cons, Nat.add_sub_cancel, List.drop_left]
        rfl
      · rw [scan_keep cut]
        dsimp only
        exact (intercalate_append k.delimiter [c] _ _).trans (congrArg (c :: ·) (ih 0 _))

theorem Cutter.intercalate_pieces {k : Cutter} (solid : k.delimiter ≠ []) (cs : List Char) :
    List.intercalate k.delimiter (k.pieces cs) = cs :=
  intercalate_scan solid 0 0 cs

theorem join_marks (cs : List Char) :
    List.intercalate ['[', ']'] (arrayCutter.pieces cs) = cs :=
  Cutter.intercalate_pieces (k := arrayCutter) (List.cons_ne_nil _ _) cs

theorem join_commas (cs : List Char) : List.intercalate [','] (argumentCutter.pieces cs) = cs :=
  Cutter.intercalate_pieces (k := argumentCutter) (List.cons_ne_nil _ _) cs

theorem length_le_intercalate {α : Type} (sep : List α) {ps : List (List α)} {p : List α}
    (mem : p ∈ ps) : p.length ≤ (List.intercalate sep ps).length := by
  induction ps with
  | nil => cases mem
  | cons q qs ih =>
    cases qs with
    | nil =>
      rw [List.intercalate_singleton, List.mem_singleton.mp mem]
    | cons r rs =>
      rw [List.intercalate_cons_cons, List.length_append, List.length_append]
      rcases List.mem_cons.mp mem with rfl | mem
      · omega
      · have := ih mem
        omega

theorem blank_iff : Blank cs ↔ trim cs = [] := by
  constructor
  · intro blank
    have all := trim_padded blank (List.forall_mem_nil _) []
    rwa [List.append_nil, List.append_nil] at all
  · intro none
    obtain ⟨front, back, hf, hb, whole⟩ := exists_trim cs
    rw [none, List.append_nil] at whole
    rw [whole]
    intro c mem
    rcases List.mem_append.mp mem with mem | mem
    · exact hf c mem
    · exact hb c mem

theorem length_trim_le (cs : List Char) : (trim cs).length ≤ cs.length := by
  obtain ⟨front, back, -, -, whole⟩ := exists_trim cs
  have total := congrArg List.length whole
  rw [List.length_append, List.length_append] at total
  omega

theorem length_argument_lt {head inner p : List Char} (whole : cs = head ++ '<' :: (inner ++ ['>']))
    (mem : p ∈ argumentCutter.pieces inner) : (trim p).length < cs.length := by
  have piece := length_le_intercalate [','] mem
  have trimmed := length_trim_le p
  rw [join_commas] at piece
  rw [whole, List.length_append, List.length_cons, List.length_append]
  omega

theorem length_front_le (cs : List Char) :
    (trim (arrayCutter.scan 0 0 cs).1).length ≤ cs.length :=
  Nat.le_trans (length_trim_le _) (Cutter.begins_scan_fst (k := arrayCutter) 0 cs).length_le

theorem parseGeneric_eq_some {name base : String} {args : List String}
    (parsed : parseGeneric name = some (base, args)) :
    ∃ head inner, name.toList = head ++ '<' :: (inner ++ ['>']) ∧ '<' ∉ head ∧
      base = String.ofList (trim head) ∧ args ≠ [] ∧
      args = (((argumentCutter.pieces inner).map trim).filter (· ≠ [])).map String.ofList := by
  have whole := List.takeWhile_append_dropWhile (p := fun c => decide (c ≠ '<')) (l := name.toList)
  have before : '<' ∉ name.toList.takeWhile (fun c => decide (c ≠ '<')) := fun mem => by
    simpa using List.mem_takeWhile_imp mem
  rw [parseGeneric] at parsed
  split at parsed
  · cases parsed
  · next opening inner after =>
    have opens : opening = '<' := by
      have first := List.head?_dropWhile_not (fun c => decide (c ≠ '<')) name.toList
      rw [after] at first
      simpa using first
    subst opens
    split at parsed
    · next rest reversed =>
      have ends : inner = rest.reverse ++ ['>'] := by
        rw [← List.reverse_reverse inner, reversed, List.reverse_cons]
      split at parsed
      · cases parsed
      · next nonempty =>
        obtain ⟨rfl, rfl⟩ := Prod.mk.inj (Option.some.inj parsed)
        refine ⟨_, rest.reverse, ?_, before, rfl, ?_, ?_⟩
        · rw [← ends, ← after, whole]
        · exact fun none => nonempty (List.map_eq_nil_iff.mp none)
        · rfl
    · cases parsed

theorem length_splitArrays_le (name : String) : (splitArrays name).1.length ≤ name.length := by
  rw [splitArrays_eq, String.length_ofList, ← String.length_toList]
  exact length_front_le name.toList

theorem length_lt_of_parseGeneric {name base : String} {args : List String}
    (parsed : parseGeneric name = some (base, args)) : ∀ a ∈ args, a.length < name.length := by
  obtain ⟨head, inner, whole, -, -, -, rfl⟩ := parseGeneric_eq_some parsed
  intro a mem
  obtain ⟨t, kept, rfl⟩ := List.mem_map.mp mem
  obtain ⟨p, held, rfl⟩ := List.mem_map.mp (List.mem_filter.mp kept).1
  rw [String.length_ofList, ← String.length_toList]
  exact length_argument_lt whole held

namespace Grammar

/-! ## Phrases -/

/-- What is a phrase over words is one over other words, if the words are phrases over those. -/
theorem Phrase.bind (h : G.Phrase cs) (base : ∀ cs, G.base cs → H.Phrase cs)
    (head : ∀ cs, G.head cs → H.head cs) (gap : ∀ cs, G.gap cs → H.gap cs)
    (solid : ∀ cs, ¬ G.gap cs → G.Phrase cs → ¬ H.gap cs) (rest : ∀ cs, G.rest cs → H.rest cs) :
    H.Phrase cs := by
  induction h with
  | base known => exact base _ known
  | applied first blanks some_ phrases ih =>
    obtain ⟨p, mem, named⟩ := some_
    exact .applied (head _ first) blanks ⟨p, mem, solid p named (phrases p mem named)⟩
      fun q mem named => ih q mem fun no => named (gap q no)
  | marked _ follows ih => exact .marked ih (rest _ follows)
  | padded front back _ ih => exact .padded front back ih

theorem Phrase.of_trim (h : G.Phrase (trim cs)) : G.Phrase cs := by
  obtain ⟨front, back, hf, hb, whole⟩ := exists_trim cs
  rw [whole]
  exact .padded hf hb h

theorem Phrase.marks {ps : List (List Char)} (h : G.Phrase cs) (follows : ∀ p ∈ ps, G.rest p) :
    G.Phrase (List.intercalate ['[', ']'] (cs :: ps)) := by
  induction ps generalizing cs with
  | nil => rwa [List.intercalate_singleton]
  | cons p ps ih =>
    have joined := ih (.marked h (follows p List.mem_cons_self)) fun q mem =>
      follows q (List.mem_cons_of_mem p mem)
    rw [show cs ++ '[' :: ']' :: p = cs ++ ['[', ']'] ++ p by simp, intercalate_append] at joined
    rwa [List.intercalate_cons_cons]

/-! ## Fitting texts -/

theorem scan_trim_fst (cs : List Char) :
    arrayCutter.scan 0 0 (trim (arrayCutter.scan 0 0 cs).1) =
      (trim (arrayCutter.scan 0 0 cs).1, []) := by
  obtain ⟨front, back, hf, hb, whole⟩ := exists_trim (arrayCutter.scan 0 0 cs).1
  have uncut := Cutter.scan_fst (k := arrayCutter) 0 cs
  rw [whole, List.append_assoc, scan_front hf] at uncut
  obtain ⟨first, further⟩ := Prod.mk.inj uncut
  exact Cutter.scan_of_append (Prod.ext (List.append_cancel_left first) further)

theorem Fits.base (h : G.Fits cs) : G.Fits (trim (arrayCutter.scan 0 0 cs).1) := by
  obtain ⟨-, gap, arguments⟩ := h
  refine .intro ?_ ?_ ?_
  · rw [scan_trim_fst]
    exact fun _ no => nomatch no
  · rw [scan_trim_fst, trim_trim]
    exact gap
  · rw [scan_trim_fst, trim_trim]
    exact arguments

theorem Fits.phrase (h : G.Fits cs) (base : G.Phrase (trim (arrayCutter.scan 0 0 cs).1)) :
    G.Phrase cs := by
  obtain ⟨follows, -, -⟩ := h
  rw [← join_marks cs]
  exact base.of_trim.marks follows

theorem Fits.applied (h : G.Fits cs) (uncut : arrayCutter.scan 0 0 cs = (cs, []))
    (trimmed : trim cs = cs) (gap : ∀ p, G.gap p → Blank p) {base : String} {args : List String}
    (parsed : parseGeneric (String.ofList cs) = some (base, args)) (known : G.head base.toList)
    (each : ∀ a ∈ args, G.Fits a.toList → G.Phrase a.toList) : G.Phrase cs := by
  obtain ⟨head, inner, whole, first, rfl, nonempty, rfl⟩ := parseGeneric_eq_some parsed
  rw [String.toList_ofList] at whole
  obtain ⟨-, gaps, arguments⟩ := h
  rw [uncut] at gaps arguments
  dsimp only at gaps arguments
  rw [trimmed] at gaps arguments
  have listed : ∀ p ∈ argumentCutter.pieces inner, ¬ Blank p →
      String.ofList (trim p) ∈
        (((argumentCutter.pieces inner).map trim).filter (· ≠ [])).map String.ofList := by
    intro p mem named
    refine List.mem_map_of_mem (List.mem_filter.mpr ⟨List.mem_map_of_mem mem, ?_⟩)
    rw [blank_iff] at named
    simpa using named
  have phrases : ∀ p ∈ argumentCutter.pieces inner, ¬ G.gap p → G.Phrase p := by
    intro p mem named
    have solid : ¬ Blank p := fun blank => named (gaps head inner whole first p mem blank)
    have phrase := each _ (listed p mem solid)
    rw [String.toList_ofList] at phrase
    exact (phrase (arguments head inner whole first p mem solid)).of_trim
  have some_ : ∃ p ∈ argumentCutter.pieces inner, ¬ G.gap p := by
    obtain ⟨a, mem⟩ := List.exists_mem_of_ne_nil _ nonempty
    obtain ⟨t, mem, -⟩ := List.mem_map.mp mem
    obtain ⟨mem, named⟩ := List.mem_filter.mp mem
    obtain ⟨p, held, rfl⟩ := List.mem_map.mp mem
    refine ⟨p, held, fun no => ?_⟩
    simp [blank_iff.mp (gap p no)] at named
  obtain ⟨front, back, hf, hb, padded⟩ := exists_trim head
  rw [String.toList_ofList] at known
  have phrase := Phrase.padded hf (List.forall_mem_nil _) (.applied known hb some_ phrases)
  rw [join_commas] at phrase
  have same : cs = front ++ (trim head ++ back ++ '<' :: (inner ++ ['>'])) ++ [] := by
    rw [whole]
    conv_lhs => rw [padded]
    simp
  rwa [same]

/-- Every text is cut as a grammar allows that passes over blank arguments and all rests. -/
theorem fits_tolerant (cs : List Char) : tolerant.Fits cs := by
  refine .intro (fun _ _ => trivial) (fun _ _ _ _ _ _ blank => blank) ?_
  intro head inner whole _ p mem _
  have shorter := Nat.lt_of_lt_of_le (length_argument_lt whole mem) (length_front_le cs)
  exact fits_tolerant (trim p)
termination_by cs.length

/-! ## Canonical phrases fit -/

inductive Marks : List Char → Prop

  | nil : Marks []

  | mark {cs blanks : List Char} : Marks cs → Blank blanks → Marks (cs ++ blanks ++ ['[', ']'])

/-- A path, possibly with arguments: what a phrase is without its marks and the blanks around it. -/
inductive Core : List Char → Prop

  | path (p : Path) : Core p.name.toList

  | applied (p : Path) {blanks : List Char} {pieces : List (List Char)} : Blank blanks →
      pieces ≠ [] → (∀ q ∈ pieces, Argument q) → (∀ q ∈ pieces, documented.Fits (trim q)) →
      Core (p.name.toList ++ blanks ++ '<' :: (List.intercalate [','] pieces ++ ['>']))

variable {core marks front back : List Char}

theorem passes_marked (solid : '[' ∉ cs) (plain : ∀ c ∈ cs, c ≠ '<' ∧ c ≠ '>') :
    arrayCutter.Passes 0 cs := by
  refine Cutter.passes_plain plain ?_
  rintro c hc rest ⟨-, starts⟩
  obtain ⟨more, split⟩ := List.isPrefixOf_iff_prefix.mp starts
  obtain rfl : '[' = c := (List.cons.inj split).1
  exact solid hc

theorem Core.passes (h : Core core) : arrayCutter.Passes 0 core := by
  have path : ∀ p : Path, arrayCutter.Passes 0 p.name.toList := fun p =>
    passes_marked (fun mem => p.bare _ mem (by decide)) fun c hc =>
      ⟨(p.simple.bare c hc).1, (p.simple.bare c hc).2.1⟩
  cases h with
  | path p => exact path p
  | applied p blank nonempty each _ =>
    refine ((path p).append (passes_marked ?_ ?_)).append ?_
    · exact fun mem => ne_of_isBlank (blank _ mem) rfl rfl
    · exact fun c hc => ⟨ne_of_isBlank (blank c hc) rfl, ne_of_isBlank (blank c hc) rfl⟩
    · exact ((bracketed_join fun q hq => (each q hq).toBracketed).shielded ['[', ']'] 0).enclose
        fun rest starts => by simp at starts

theorem Core.trimmed (h : Core core) : core ≠ [] ∧ trim core = core := by
  cases h with
  | path p => exact ⟨p.nonempty, p.trimmed⟩
  | applied p blank nonempty each _ =>
    refine ⟨by simp, trim_of_ends (fun c hc => head_of_trimmed p.trimmed c ?_) fun c hc => ?_⟩
    · rwa [List.append_assoc, List.head?_append_of_ne_nil _ p.nonempty] at hc
    · rw [← List.cons_append, ← List.append_assoc, List.getLast?_concat] at hc
      obtain rfl := Option.some.inj hc
      rfl

theorem Core.trim_marks (h : Core core) (hm : Marks marks) :
    trim (core ++ marks) = core ++ marks := by
  cases hm with
  | nil => rw [List.append_nil, h.trimmed.2]
  | mark =>
    refine trim_of_ends (fun c hc => head_of_trimmed h.trimmed.2 c ?_) fun c hc => ?_
    · rwa [List.head?_append_of_ne_nil _ h.trimmed.1] at hc
    · rw [show ['[', ']'] = ['['] ++ [']'] from rfl, ← List.append_assoc, ← List.append_assoc,
        List.getLast?_concat] at hc
      obtain rfl := Option.some.inj hc
      rfl

theorem Marks.scan {tail : List Char} (hm : Marks marks)
    (blank : Blank (arrayCutter.scan 0 0 tail).1 ∧ ∀ p ∈ (arrayCutter.scan 0 0 tail).2, Blank p) :
    Blank (arrayCutter.scan 0 0 (marks ++ tail)).1 ∧
      ∀ p ∈ (arrayCutter.scan 0 0 (marks ++ tail)).2, Blank p := by
  induction hm generalizing tail with
  | nil => exact blank
  | @mark cs blanks _ hb ih =>
    rw [List.append_assoc, List.append_assoc]
    apply ih
    have starts : arrayCutter.delimiter.isPrefixOf ('[' :: ']' :: tail) = true := rfl
    rw [scan_front hb, List.cons_append, List.singleton_append, Cutter.scan_cut starts]
    dsimp only
    refine ⟨?_, List.forall_mem_cons.mpr blank⟩
    rwa [List.append_nil]

theorem dropWhile_first {inner : List Char} (first : '<' ∉ front) :
    (front ++ '<' :: inner).dropWhile (· ≠ '<') = '<' :: inner := by
  rw [List.dropWhile_append_of_pos, List.dropWhile_cons_of_neg (by decide)]
  exact fun c hc => decide_eq_true fun opens => first (opens ▸ hc)

theorem Core.arguments (h : Core core) {head inner : List Char}
    (whole : core = head ++ '<' :: (inner ++ ['>'])) (first : '<' ∉ head) :
    ∀ q ∈ argumentCutter.pieces inner, ¬ Blank q ∧ documented.Fits (trim q) := by
  have bare : ∀ p : Path, '<' ∉ p.name.toList := fun p mem => p.bare _ mem (by decide)
  cases h with
  | path p => exact absurd (whole ▸ by simp) (bare p)
  | @applied p blanks pieces blank nonempty each fits =>
    have before : '<' ∉ p.name.toList ++ blanks := by
      rw [List.mem_append]
      rintro (mem | mem)
      · exact bare p mem
      · exact ne_of_isBlank (blank _ mem) rfl rfl
    have rest := congrArg (List.dropWhile (· ≠ '<')) whole
    rw [dropWhile_first before, dropWhile_first first, List.cons.injEq,
      List.append_cancel_right_eq] at rest
    obtain ⟨q, qs, rfl⟩ := List.exists_cons_of_ne_nil nonempty
    have cut := scan_join fun r hr => (each r hr).uncut
    rw [rest.2] at cut
    rw [Cutter.pieces, cut]
    exact fun r hr => ⟨fun no => (each r hr).named (blank_iff.mp no), fits r hr⟩

theorem Core.fits (h : Core core) (hf : Blank front) (hm : Marks marks) (hb : Blank back) :
    documented.Fits (front ++ (core ++ marks) ++ back) := by
  obtain ⟨blank, none⟩ := scan_blanks hb 0 0
  obtain ⟨first, further⟩ := hm.scan ⟨blank, none ▸ List.forall_mem_nil _⟩
  have scanned : arrayCutter.scan 0 0 (front ++ (core ++ marks) ++ back) =
      (front ++ core ++ (arrayCutter.scan 0 0 (marks ++ back)).1,
        (arrayCutter.scan 0 0 (marks ++ back)).2) := by
    rw [List.append_assoc, scan_front hf, List.append_assoc, h.passes]
    dsimp only
    rw [List.append_assoc]
  have bare : trim (arrayCutter.scan 0 0 (front ++ (core ++ marks) ++ back)).1 = core := by
    rw [scanned, trim_padded hf first, h.trimmed.2]
  refine .intro ?_ ?_ ?_
  · rw [scanned]
    exact further
  · intro head inner whole opens q mem empty
    rw [bare] at whole
    exact (h.arguments whole opens q mem).1 empty
  · intro head inner whole opens q mem _
    rw [bare] at whole
    exact (h.arguments whole opens q mem).2

theorem Core.argument (h : Core core) : Argument core := by
  have named := h.trimmed
  cases h with
  | path p => exact p.simple.argument p.nonempty
  | applied p blank nonempty each _ =>
    have inner := bracketed_join fun q hq => (each q hq).toBracketed
    have gap := bracketed_of_plain fun c hc =>
      ⟨ne_of_isBlank (blank c hc) rfl, ne_of_isBlank (blank c hc) rfl⟩
    refine ⟨(p.simple.bracketed.append gap).append inner.enclose,
      (p.simple.uncut.append (passes_blank blank)).append ((inner.shielded [','] 0).enclose ?_), ?_⟩
    · exact fun rest starts => by simp at starts
    · rw [named.2]
      exact named.1

/-- The text is a path, perhaps with arguments and marks, between blanks. -/
def Parted (cs : List Char) : Prop :=
  ∃ front core marks back, Blank front ∧ Core core ∧ Marks marks ∧ Blank back ∧
    cs = front ++ (core ++ marks) ++ back

theorem Parted.argument (h : Parted cs) : Argument cs := by
  obtain ⟨front, core, marks, back, hf, hc, hm, hb, rfl⟩ := h
  refine Argument.padded hf hb ?_
  induction hm with
  | nil =>
    rw [List.append_nil]
    exact hc.argument
  | @mark cs blanks _ blank ih =>
    have padded := (ih.padded (List.forall_mem_nil _) blank).array
    rwa [List.nil_append, List.append_assoc core, List.append_assoc core] at padded

theorem Parted.fits (h : Parted cs) : documented.Fits cs ∧ documented.Fits (trim cs) := by
  obtain ⟨front, core, marks, back, hf, hc, hm, hb, rfl⟩ := h
  refine ⟨hc.fits hf hm hb, ?_⟩
  have alone := hc.fits (List.forall_mem_nil _) hm (List.forall_mem_nil _)
  rwa [List.nil_append, List.append_nil, ← hc.trim_marks hm, ← trim_padded hf hb] at alone

theorem Phrase.parted (h : documented.Phrase cs) : Parted cs := by
  have none : Blank [] := List.forall_mem_nil _
  induction h with
  | base known =>
    obtain ⟨p, rfl⟩ := known
    exact ⟨[], _, [], [], none, .path p, .nil, none, by simp⟩
  | @applied head blanks pieces known blank some_ _ ih =>
    obtain ⟨p, rfl⟩ := known
    obtain ⟨q, mem, -⟩ := some_
    refine ⟨[], _, [], [], none, .applied p blank (List.ne_nil_of_mem mem)
      (fun q hq => (ih q hq fun no => no).argument) (fun q hq => (ih q hq fun no => no).fits.2),
      .nil, none, by simp⟩
  | @marked cs rest _ follows ih =>
    obtain ⟨front, core, marks, back, hf, hc, hm, hb, rfl⟩ := ih
    exact ⟨front, core, _, rest, hf, hc, hm.mark hb, follows, by simp⟩
  | @padded front' _ back' hf' hb' _ ih =>
    obtain ⟨front, core, marks, back, hf, hc, hm, hb, rfl⟩ := ih
    refine ⟨front' ++ front, core, marks, back ++ back', ?_, hc, hm, ?_, by simp⟩
    · exact List.forall_mem_append.mpr ⟨hf', hf⟩
    · exact List.forall_mem_append.mpr ⟨hb, hb'⟩

theorem Phrase.tolerant (h : documented.Phrase cs) : tolerant.Phrase cs := by
  refine h.bind (fun _ known => .base known) (fun _ known => known) (fun _ no => no.elim) ?_
    fun _ _ => trivial
  exact fun p _ phrase blank => phrase.parted.argument.named (blank_iff.mp blank)

/-- A text in which other text than blanks follows a mark is no canonical name. -/
theorem not_documented_of_rest {p : List Char} (mem : p ∈ (arrayCutter.scan 0 0 cs).2)
    (solid : ¬ Blank p) : ¬ documented.Phrase cs := by
  intro phrase
  obtain ⟨follows, -, -⟩ := phrase.parted.fits.1
  exact solid (follows p mem)

theorem isPath_of_spelling {name : String} {p : Primitive}
    (spelling : Primitive.ofSpelling? name = some p) : IsPath name.toList := by
  have unclosed : ∀ s ∈ spelled, ']' ∉ s.toList ∧ ']' ∉ ("System." ++ s).toList := by
    decide +kernel
  obtain ⟨simple, nonempty⟩ := simple_of_spelling spelling
  have opened := unbracketed_of_spelling spelling
  simp only [unbracketed, Bool.and_eq_true, List.all_eq_true, decide_eq_true_eq] at opened
  have closed : ']' ∉ name.toList := by
    obtain ⟨short, long⟩ := unclosed _ (mem_spelled spelling)
    rcases dropNamespace_cases name with same | same
    · rwa [same]
    · rwa [same]
  refine ⟨⟨name, nonempty, simple.trimmed, fun c hc mem => ?_⟩, rfl⟩
  simp only [List.mem_cons, List.not_mem_nil, or_false] at mem
  rcases mem with rfl | rfl | rfl | rfl | rfl
  · exact (simple.bare _ hc).1 rfl
  · exact (simple.bare _ hc).2.1 rfl
  · exact (simple.bare _ hc).2.2 rfl
  · exact (opened.1 _ hc).2 rfl
  · exact closed hc

end Grammar

end SchemaCodec.TypeName
