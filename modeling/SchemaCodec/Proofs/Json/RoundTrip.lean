import SchemaCodec.Proofs.Json.Tokens

/-! # Reading what was written

A value of texts and integers is read back from its text in any layout that separates by blanks. The
steps of the reader are bounded by twice the number of characters that it has passed.
-/

namespace SchemaCodec.Json

/-- The value consists of texts and integers. -/
inductive Plain : Json → Prop

  | null : Plain .null

  | bool (b : Bool) : Plain (.bool b)

  | integer (n : Int) : Plain (ofInt n)

  | text (s : String) : Plain (ofString s)

  | array {items : List Json} : (∀ v ∈ items, Plain v) → Plain (.array items)

  | object {members : List (List Piece × Json)} : (∀ m ∈ members, ∃ s, m.1 = pieces s) →
      (∀ m ∈ members, Plain m.2) → Plain (.object members)

def Blank (cs : List Char) : Prop := ∀ c ∈ cs, isSpace c = true

structure Layout.Spaced (layout : Layout) : Prop where
  line : ∀ depth, Blank (layout.line depth)
  colon : ∃ blanks, layout.colon = ':' :: blanks ∧ Blank blanks

theorem spaced_compact : Layout.compact.Spaced where
  line := fun _ _ no => nomatch no
  colon := ⟨[], rfl, fun _ no => nomatch no⟩

theorem spaced_pretty : Layout.pretty.Spaced where
  line := by
    intro depth c hc
    rcases List.mem_cons.mp hc with rfl | hc
    · rfl
    · obtain rfl := List.eq_of_mem_replicate hc
      rfl
  colon := by
    refine ⟨[' '], rfl, fun c hc => ?_⟩
    obtain rfl := List.mem_singleton.mp hc
    rfl

theorem spaced_of_mem {layout : Layout} (mem : layout ∈ [Layout.compact, .pretty]) :
    layout.Spaced := by
  rcases List.mem_cons.mp mem with rfl | mem
  · exact spaced_compact
  · obtain rfl := List.mem_singleton.mp mem
    exact spaced_pretty

variable {layout : Layout} {v item : Json} {items : List Json} {lead tail rest cs : List Char}
  {c : Char} {depth fuel : Nat}

/-! ## Blanks -/

theorem skip_append (blank : Blank lead) (cs : List Char) : skip (lead ++ cs) = skip cs :=
  List.dropWhile_append_of_pos blank

theorem skip_cons (solid : isSpace c = false) (cs : List Char) : skip (c :: cs) = c :: cs := by
  rw [skip, List.dropWhile_cons, solid]
  rfl

theorem stops_cons (closes : c = ',' ∨ c = ']' ∨ c = '}') : Stops (c :: rest) := by
  intro d more same
  obtain ⟨rfl, -⟩ := List.cons.inj same
  rcases closes with rfl | rfl | rfl <;> decide

theorem stops_append (blank : Blank tail) (closes : c = ',' ∨ c = ']' ∨ c = '}') :
    Stops (tail ++ c :: rest) := by
  cases tail with
  | nil => exact stops_cons closes
  | cons e tail =>
    intro d more same
    obtain ⟨rfl, -⟩ := List.cons.inj same
    have space := blank _ List.mem_cons_self
    simp only [isSpace, Bool.or_eq_true, decide_eq_true_eq] at space
    rcases space with ((rfl | rfl) | rfl) | rfl <;> decide

theorem Begins.solid (h : Begins c) : isSpace c = false := by
  simp only [isSpace, Bool.or_eq_false_iff, decide_eq_false_iff_not]
  exact ⟨⟨⟨h.ne _ (by decide), h.ne _ (by decide)⟩, h.ne _ (by decide)⟩, h.ne _ (by decide)⟩

theorem print_cons (plain : Plain v) (layout : Layout) (depth : Nat) :
    ∃ c more, print layout depth v = c :: more ∧ isSpace c = false ∧ c ≠ ']' ∧ c ≠ '}' := by
  cases plain with
  | null => exact ⟨_, _, rfl, by decide⟩
  | bool b => cases b <;> exact ⟨_, _, rfl, by decide⟩
  | integer n =>
    obtain ⟨c, more, same, begins⟩ := toString_cons n
    exact ⟨c, more, same, begins.solid, begins.ne _ (by decide), begins.ne _ (by decide)⟩
  | text s => exact ⟨_, _, rfl, by decide⟩
  | @array items _ =>
    cases items with
    | nil => exact ⟨_, _, rfl, by decide⟩
    | cons item items => exact ⟨_, _, rfl, by decide⟩
  | @object members _ _ =>
    cases members with
    | nil => exact ⟨_, _, rfl, by decide⟩
    | cons member members => exact ⟨_, _, rfl, by decide⟩

/-! ## Values -/

/-- The value is read from its text, after blanks and before whatever ends an integer. -/
def ReadBack (layout : Layout) (v : Json) : Prop :=
  ∀ depth fuel lead rest, Blank lead → Stops rest →
    2 * (lead.length + (print layout depth v).length) ≤ fuel →
    readValue fuel (lead ++ (print layout depth v ++ rest)) = some (v, rest)

theorem readBack_null (layout : Layout) : ReadBack layout .null := by
  intro depth fuel lead rest blank stops enough
  rw [print] at enough ⊢
  obtain ⟨fuel, rfl⟩ : ∃ n, fuel = n + 1 := ⟨fuel - 1, by simp at enough; omega⟩
  rw [readValue, skip_append blank]
  rfl

theorem readBack_bool (layout : Layout) (b : Bool) : ReadBack layout (.bool b) := by
  intro depth fuel lead rest blank stops enough
  obtain ⟨fuel, rfl⟩ : ∃ n, fuel = n + 1 := by
    cases b <;> exact ⟨fuel - 1, by simp [print] at enough; omega⟩
  cases b with
  | true =>
    rw [print, readValue, skip_append blank]
    rfl
  | false =>
    rw [print, readValue, skip_append blank]
    rfl

theorem quote_append (ps : List Piece) (cs : List Char) :
    quote ps ++ cs = '"' :: (ps.flatMap Piece.print ++ '"' :: cs) := by
  rw [quote, List.cons_append, List.cons_append, List.append_assoc]
  rfl

theorem readValue_text (opens : skip cs = '"' :: rest) :
    readValue (fuel + 1) cs = (readString rest).map fun p => (.string p.1, p.2) := by
  rw [readValue, opens, Option.map_eq_bind]
  rfl

theorem readBack_text (layout : Layout) (s : String) : ReadBack layout (ofString s) := by
  intro depth fuel lead rest blank stops enough
  rw [ofString, print] at enough ⊢
  obtain ⟨fuel, rfl⟩ : ∃ n, fuel = n + 1 := ⟨fuel - 1, by simp [quote] at enough; omega⟩
  rw [quote_append, readValue_text ((skip_append blank _).trans (skip_cons (by decide) _)),
    readString_pieces]
  rfl

theorem readValue_integer (opens : skip cs = c :: rest) (begins : Begins c) :
    readValue (fuel + 1) cs = (readNumber (c :: rest)).map fun p => (.number p.1, p.2) := by
  have other := begins.ne
  rw [readValue, opens]
  split
  · next no => cases no
  · next same => exact absurd (List.cons.inj same).1 (other _ (by decide))
  · next same => exact absurd (List.cons.inj same).1 (other _ (by decide))
  · next same => exact absurd (List.cons.inj same).1 (other _ (by decide))
  · next same => exact absurd (List.cons.inj same).1 (other _ (by decide))
  · next same => exact absurd (List.cons.inj same).1 (other _ (by decide))
  · next same => exact absurd (List.cons.inj same).1 (other _ (by decide))
  · rw [Option.map_eq_bind]
    rfl

theorem readBack_integer (layout : Layout) (n : Int) : ReadBack layout (ofInt n) := by
  intro depth fuel lead rest blank stops enough
  obtain ⟨c, more, same, begins⟩ := toString_cons n
  rw [ofInt, print] at enough ⊢
  have number := readNumber_toString n stops
  rw [same] at enough number ⊢
  obtain ⟨fuel, rfl⟩ : ∃ n, fuel = n + 1 := ⟨fuel - 1, by simp at enough; omega⟩
  have opens : skip (lead ++ (c :: more ++ rest)) = c :: (more ++ rest) := by
    rw [skip_append blank, List.cons_append, skip_cons begins.solid]
  rw [readValue_integer opens begins, ← List.cons_append, number]
  rfl

/-! ## Arrays -/

theorem readItems_last (value : readValue fuel cs = some (v, tail))
    (closes : skip tail = ']' :: rest) : readItems (fuel + 1) cs = some ([v], rest) := by
  rw [readItems, value]
  simp only [Option.bind_eq_bind, Option.bind_some, closes]
  rfl

theorem readItems_more (value : readValue fuel cs = some (v, tail))
    (further : skip tail = ',' :: rest) :
    readItems (fuel + 1) cs = (readItems fuel rest).map fun p => (v :: p.1, p.2) := by
  rw [readItems, value]
  simp only [Option.bind_eq_bind, Option.bind_some, further]
  rw [Option.map_eq_bind]
  rfl

theorem readItems_print (spaced : layout.Spaced)
    (back : ReadBack layout item) (backs : ∀ v ∈ items, ReadBack layout v)
    (blank : Blank lead) (ends : Blank tail)
    (enough : 2 * (lead.length + (print layout depth item).length +
      (printItems layout depth items).length + tail.length + 1) ≤ fuel) :
    readItems fuel (lead ++ (print layout depth item ++
      (printItems layout depth items ++ (tail ++ ']' :: rest)))) =
      some (item :: items, rest) := by
  induction items generalizing item lead fuel with
  | nil =>
    rw [printItems, List.nil_append]
    obtain ⟨fuel, rfl⟩ : ∃ n, fuel = n + 1 := ⟨fuel - 1, by omega⟩
    refine readItems_last (back depth fuel lead _ blank ?_ (by omega)) ?_
    · exact stops_append ends (.inr (.inl rfl))
    · rw [skip_append ends, skip_cons (by decide)]
  | cons next items ih =>
    rw [printItems, List.length_append, List.length_append, List.length_cons] at enough
    obtain ⟨fuel, rfl⟩ : ∃ n, fuel = n + 1 := ⟨fuel - 1, by omega⟩
    simp only [printItems, List.cons_append, List.append_assoc]
    rw [readItems_more (back depth fuel lead _ blank (stops_cons (.inl rfl)) (by omega))
      (skip_cons (by decide) _),
      ih (backs _ List.mem_cons_self) (fun v hv => backs v (List.mem_cons_of_mem _ hv))
        (spaced.line depth) (by omega)]
    rfl

theorem readValue_items (opens : skip cs = '[' :: lead) (first : skip lead = c :: rest)
    (other : c ≠ ']') :
    readValue (fuel + 1) cs = (readItems fuel (c :: rest)).map fun p => (.array p.1, p.2) := by
  rw [readValue, opens]
  simp only [first]
  split
  · next same => exact absurd (List.cons.inj same).1 other
  · rw [Option.map_eq_bind]
    rfl

theorem readBack_array (spaced : layout.Spaced) (plain : ∀ v ∈ items, Plain v)
    (backs : ∀ v ∈ items, ReadBack layout v) : ReadBack layout (.array items) := by
  intro depth fuel lead rest blank stops enough
  obtain ⟨fuel, rfl⟩ : ∃ n, fuel = n + 1 := by
    cases items <;> exact ⟨fuel - 1, by simp [print] at enough; omega⟩
  cases items with
  | nil =>
    rw [print, readValue, skip_append blank]
    rfl
  | cons item items =>
    simp only [print, List.cons_append, List.append_assoc, List.length_cons,
      List.length_append, List.nil_append, List.length_nil] at enough ⊢
    have read : readItems fuel ([] ++ (print layout (depth + 1) item ++
        (printItems layout (depth + 1) items ++ (layout.line depth ++ ']' :: rest)))) =
          some (item :: items, rest) :=
      readItems_print spaced (backs _ List.mem_cons_self)
        (fun v hv => backs v (List.mem_cons_of_mem _ hv)) (fun _ no => nomatch no)
        (spaced.line depth) (by rw [List.length_nil]; omega)
    obtain ⟨c, more, begins, solid, other, -⟩ :=
      print_cons (plain _ List.mem_cons_self) layout (depth + 1)
    rw [List.nil_append, begins, List.cons_append] at read
    rw [begins, List.cons_append, readValue_items
      ((skip_append blank _).trans (skip_cons (by decide) _))
      ((skip_append (spaced.line _) _).trans (skip_cons solid _)) other, read]
    rfl

/-! ## Objects -/

theorem readMembers_last {key : List Piece} {text after following : List Char}
    (opens : skip cs = '"' :: text) (named : readString text = some (key, after))
    (colon : skip after = ':' :: following) (value : readValue fuel following = some (v, tail))
    (closes : skip tail = '}' :: rest) :
    readMembers (fuel + 1) cs = some ([(key, v)], rest) := by
  rw [readMembers, opens]
  simp only [Option.bind_eq_bind, Option.bind_some, named, colon, value, closes]
  rfl

theorem readMembers_more {key : List Piece} {text after following : List Char}
    (opens : skip cs = '"' :: text) (named : readString text = some (key, after))
    (colon : skip after = ':' :: following) (value : readValue fuel following = some (v, tail))
    (further : skip tail = ',' :: rest) :
    readMembers (fuel + 1) cs =
      (readMembers fuel rest).map fun p => ((key, v) :: p.1, p.2) := by
  rw [readMembers, opens]
  simp only [Option.bind_eq_bind, Option.bind_some, named, colon, value, further]
  rw [Option.map_eq_bind]
  rfl

theorem readMembers_print (spaced : layout.Spaced) {s : String}
    {members : List (List Piece × Json)} (back : ReadBack layout v)
    (names : ∀ m ∈ members, ∃ s, m.1 = pieces s) (backs : ∀ m ∈ members, ReadBack layout m.2)
    (blank : Blank lead) (ends : Blank tail)
    (enough : 2 * (lead.length + layout.colon.length + (print layout depth v).length +
      (printMembers layout depth members).length + tail.length + 1) ≤ fuel) :
    readMembers fuel (lead ++ (quote (pieces s) ++ (layout.colon ++ (print layout depth v ++
      (printMembers layout depth members ++ (tail ++ '}' :: rest)))))) =
      some ((pieces s, v) :: members, rest) := by
  obtain ⟨blanks, colon, blank'⟩ := spaced.colon
  have shorter : blanks.length ≤ layout.colon.length := by simp [colon]
  have skipped : ∀ cs, skip (layout.colon ++ cs) = ':' :: (blanks ++ cs) := by
    intro cs
    rw [colon, List.cons_append, skip_cons (by decide)]
  induction members generalizing v s lead fuel with
  | nil =>
    rw [printMembers] at enough ⊢
    obtain ⟨fuel, rfl⟩ : ∃ n, fuel = n + 1 := ⟨fuel - 1, by omega⟩
    rw [quote_append]
    refine readMembers_last ((skip_append blank _).trans (skip_cons (by decide) _))
      (readString_pieces s _) (skipped _) (back depth fuel blanks _ blank' ?_ (by omega)) ?_
    · exact stops_append ends (.inr (.inr rfl))
    · rw [List.nil_append, skip_append ends, skip_cons (by decide)]
  | cons next members ih =>
    obtain ⟨key, w⟩ := next
    obtain ⟨s', rfl⟩ := names _ List.mem_cons_self
    rw [printMembers] at enough ⊢
    simp only [List.length_append, List.length_cons] at enough
    obtain ⟨fuel, rfl⟩ : ∃ n, fuel = n + 1 := ⟨fuel - 1, by omega⟩
    have back' : ReadBack layout w := backs _ List.mem_cons_self
    simp only [List.cons_append, List.append_assoc]
    rw [quote_append, readMembers_more ((skip_append blank _).trans (skip_cons (by decide) _))
      (readString_pieces s _) (skipped _)
      (back depth fuel blanks _ blank' (stops_cons (.inl rfl)) (by omega))
      (skip_cons (by decide) _),
      ih back' (fun m hm => names m (List.mem_cons_of_mem _ hm))
        (fun m hm => backs m (List.mem_cons_of_mem _ hm)) (spaced.line depth) (by omega)]
    rfl

theorem readValue_members (opens : skip cs = '{' :: lead) (first : skip lead = c :: rest)
    (other : c ≠ '}') :
    readValue (fuel + 1) cs = (readMembers fuel (c :: rest)).map fun p => (.object p.1, p.2) := by
  rw [readValue, opens]
  simp only [first]
  split
  · next same => exact absurd (List.cons.inj same).1 other
  · rw [Option.map_eq_bind]
    rfl

theorem readBack_object (spaced : layout.Spaced) {members : List (List Piece × Json)}
    (names : ∀ m ∈ members, ∃ s, m.1 = pieces s) (backs : ∀ m ∈ members, ReadBack layout m.2) :
    ReadBack layout (.object members) := by
  intro depth fuel lead rest blank stops enough
  obtain ⟨fuel, rfl⟩ : ∃ n, fuel = n + 1 := by
    cases members <;> exact ⟨fuel - 1, by simp [print] at enough; omega⟩
  cases members with
  | nil =>
    rw [print, readValue, skip_append blank]
    rfl
  | cons member members =>
    obtain ⟨key, v⟩ := member
    obtain ⟨s, rfl⟩ := names _ List.mem_cons_self
    have back : ReadBack layout v := backs _ List.mem_cons_self
    simp only [print, List.cons_append, List.append_assoc, List.length_cons,
      List.length_append, List.nil_append, List.length_nil] at enough ⊢
    have read : readMembers fuel ([] ++ (quote (pieces s) ++ (layout.colon ++
        (print layout (depth + 1) v ++ (printMembers layout (depth + 1) members ++
          (layout.line depth ++ '}' :: rest)))))) = some ((pieces s, v) :: members, rest) :=
      readMembers_print spaced back (fun m hm => names m (List.mem_cons_of_mem _ hm))
        (fun m hm => backs m (List.mem_cons_of_mem _ hm)) (fun _ no => nomatch no)
        (spaced.line depth) (by rw [List.length_nil]; omega)
    rw [List.nil_append, quote_append] at read
    rw [quote_append, readValue_members ((skip_append blank _).trans (skip_cons (by decide) _))
      ((skip_append (spaced.line _) _).trans (skip_cons (by decide) _)) (by decide), read]
    rfl

/-! ## Documents -/

theorem Plain.readBack (plain : Plain v) (spaced : layout.Spaced) : ReadBack layout v := by
  induction v with
  | null => exact readBack_null layout
  | bool b => exact readBack_bool layout b
  | number spelling =>
    cases plain
    exact readBack_integer layout _
  | string ps =>
    cases plain
    exact readBack_text layout _
  | array items ih =>
    cases plain with
    | array plain => exact readBack_array spaced plain fun v hv => ih v hv (plain v hv)
  | object members ih =>
    cases plain with
    | object names plain => exact readBack_object spaced names fun m hm => ih m hm (plain m hm)

/-- What a layout renders is parsed back. -/
theorem parse?_render (spaced : layout.Spaced) (plain : Plain v) :
    parse? (render layout v) = some v := by
  have read := plain.readBack spaced 0 (2 * (print layout 0 v).length + 1) [] []
    (fun _ no => nomatch no) (fun _ _ no => nomatch no) (by rw [List.length_nil]; omega)
  rw [List.nil_append, List.append_nil] at read
  rw [parse?, render, String.toList_ofList, read]
  rfl

end SchemaCodec.Json
