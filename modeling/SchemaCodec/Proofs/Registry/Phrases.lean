import SchemaCodec.Proofs.Outcome
import SchemaCodec.Proofs.Registry.Denotation
import SchemaCodec.Proofs.Registry.Growth
import SchemaCodec.Proofs.TypeName.Grammar

/-! # Names that resolve

Whatever resolves is put together from the names that a registry knows. What is passed over in a
name that resolves are blank arguments and what stands after a mark of a sequence, and nothing else.
-/

namespace SchemaCodec.Registry

open SchemaCodec.Action SchemaCodec.TypeName SchemaCodec.TypeName.Grammar

variable {r r' : Registry} {name : String} {G : Grammar}

/-- The names in a registry are of the grammar, those that were resolved as far as their pieces are
as in the grammar. -/
structure Worded (G : Grammar) (r : Registry) : Prop where
  declared : ∀ name d, r.declared.get? name = some d → G.base name.toList
  generics : ∀ base g, r.generics.get? base = some g → G.head base.toList
  resolved : ∀ name d, r.resolved.get? name = some d → G.Fits name.toList → G.Phrase name.toList

section Names

variable (primitives : ∀ name p, Primitive.ofSpelling? name = some p → G.base name.toList)
  (blank : ∀ p, G.gap p → Blank p)

theorem faults_trivial : Faults fun _ => True :=
  ⟨fun _ => trivial, fun _ => trivial, fun _ => trivial, fun _ _ => trivial⟩

include primitives blank

theorem worded_resolveBase {resolve : String → Action Registry Descriptor}
    (h : ∀ name, (resolve name).Keeps (Worded G) (fun _ => True)
      fun _ => G.Fits name.toList → G.Phrase name.toList)
    {cs : List Char} (uncut : arrayCutter.scan 0 0 cs = (cs, [])) (trimmed : trim cs = cs) :
    (resolveBase resolve (String.ofList cs)).Keeps (Worded G) (fun _ => True)
      fun found => found ≠ none → G.Fits cs → G.Phrase cs := by
  refine keeps_get.bind fun r worded => ?_
  split
  · next d known =>
    refine keeps_pure fun _ fits => ?_
    rw [← @String.toList_ofList cs] at fits ⊢
    rcases Option.or_eq_some_iff.mp known with noted | ⟨-, declared⟩
    · exact worded.resolved _ _ noted fits
    · exact .base (worded.declared _ _ declared)
  · split
    · next g names application =>
      obtain ⟨head, parsed, known⟩ := application?_eq_some.mp application
      refine (Keeps.traverse fun name _ => h name).bind fun args all =>
        (faults_instantiate faults_trivial (fun name => (h name).weaken) g args).bind
          fun d _ => keeps_pure fun _ fits => ?_
      refine fits.applied uncut trimmed blank parsed (worded.generics _ _ known) fun a mem => ?_
      obtain ⟨d, -, phrase⟩ := partner_right all mem
      exact phrase
    · refine keeps_pure fun found _ => ?_
      obtain ⟨d, spelled⟩ := Option.ne_none_iff_exists'.mp found
      obtain ⟨p, spelled, -⟩ := Option.map_eq_some_iff.mp spelled
      rw [← @String.toList_ofList cs]
      exact .base (primitives _ _ spelled)

theorem worded_resolveWithin (depth : Nat) (pending : List String) (name : String) :
    (resolveWithin depth pending name).Keeps (Worded G) (fun _ => True)
      fun _ => G.Fits name.toList → G.Phrase name.toList := by
  induction depth generalizing pending name with
  | zero =>
    unfold resolveWithin
    refine keeps_get.bind fun r worded => ?_
    split
    · next d known => exact keeps_pure (worded.resolved _ _ known)
    · split
      · exact keeps_fail trivial
      · exact keeps_fail trivial
  | succ depth ih =>
    unfold resolveWithin
    refine keeps_get.bind fun r worded => ?_
    split
    · next d known => exact keeps_pure (worded.resolved _ _ known)
    · split
      · exact keeps_fail trivial
      · rw [splitArrays_eq]
        dsimp only
        refine (worded_resolveBase primitives blank (fun name => ih _ name)
          (scan_trim_fst name.toList) (trim_trim _)).bind fun found phrase => ?_
        split
        · exact keeps_fail trivial
        · next d =>
          have whole : G.Fits name.toList → G.Phrase name.toList := fun fits =>
            fits.phrase (phrase (Option.some_ne_none d) fits.base)
          refine keeps_get.bind fun s _ => (keeps_modify fun s worded => ?_).bind fun _ _ =>
            keeps_pure whole
          refine ⟨worded.declared, worded.generics, fun other d' found => ?_⟩
          rcases Cache.get?_add_eq_some found with held | ⟨-, rfl, rfl⟩
          · exact worded.resolved _ _ held
          · exact whole

end Names

/-! ## Known names -/

inductive Known (r : Registry) (name : String) : Prop

  | primitive {p : Primitive} : Primitive.ofSpelling? name = some p → Known r name

  | declared {d : Descriptor} : r.declared.get? name = some d → Known r name

  | synthesized {short : String} {members : List (String × Descriptor)} :
      r.resolved.get? name = some (.built name short .synthesized members) → Known r name

/-- The grammar of names over those that the registry knows. -/
def words (gap rest : List Char → Prop) (r : Registry) : Grammar where
  base cs := r.Known (String.ofList cs)
  head cs := ∃ g, r.generics.get? (String.ofList cs) = some g
  gap := gap
  rest := rest

variable {gap rest : List Char → Prop}

structure Informs (r r' : Registry) : Prop where
  known : ∀ name, r.Known name → r'.Known name
  generics : ∀ base g, r.generics.get? base = some g → ∃ g', r'.generics.get? base = some g'

theorem informs_of_writes (writes : Writes r r') : r.Informs r' := by
  induction writes with
  | refl => exact ⟨fun _ known => known, fun _ g known => ⟨g, known⟩⟩
  | @tail r₁ r₂ _ write ih =>
    have grown := write.grown
    refine ⟨fun name known => ?_, fun base g known => ?_⟩
    · cases ih.known name known with
      | primitive spelled => exact .primitive spelled
      | declared held => exact .declared (grown.declared.get? held)
      | synthesized held => exact .synthesized (grown.resolved.get? held)
    · obtain ⟨g', held⟩ := ih.generics base g known
      cases write with
      | generic other =>
        by_cases same : base = other.base
        · exact ⟨other, same ▸ Cache.get?_put_self _ _ _⟩
        · exact ⟨g', (Cache.get?_put_of_ne same).trans held⟩
      | _ => exact ⟨g', held⟩

theorem Informs.phrase (informs : r.Informs r') {cs : List Char}
    (phrase : (r.words gap rest).Phrase cs) : (r'.words gap rest).Phrase cs :=
  phrase.bind (fun _ known => .base (informs.known _ known))
    (fun _ ⟨g, known⟩ => informs.generics _ g known) (fun _ empty => empty)
    (fun _ named _ => named) fun _ follows => follows

/-- The names that were resolved are put together from what the registry knows, as far as their
pieces are as in the grammar. -/
def Reads (gap rest : List Char → Prop) (r : Registry) : Prop :=
  ∀ name d, r.resolved.get? name = some d →
    (r.words gap rest).Fits name.toList → (r.words gap rest).Phrase name.toList

theorem Reads.worded (h : r.Reads gap rest) : Worded (r.words gap rest) r where
  declared name d known := by
    show r.Known (String.ofList name.toList)
    rw [String.ofList_toList]
    exact .declared known
  generics base g known := by
    show ∃ g, r.generics.get? (String.ofList base.toList) = some g
    rw [String.ofList_toList]
    exact ⟨g, known⟩
  resolved := h

theorem reads_addSynthesized (typeName : String) (members : List (String × Descriptor)) :
    (addSynthesized typeName members).Keeps (Reads gap rest) (fun _ => True) fun _ => True := by
  refine keeps_addSynthesized (fun r reads members name d found fits => ?_) members
  rcases Cache.get?_add_eq_some found with held | ⟨-, rfl, rfl⟩
  · exact (informs_of_writes (.single (.synthesized typeName _))).phrase (reads name d held fits)
  · refine .base ?_
    show Known _ (String.ofList name.toList)
    rw [String.ofList_toList]
    exact .synthesized found

theorem reads_declare (d : Descriptor) :
    (declare d).Keeps (Reads gap rest) (fun _ => True) fun _ => True :=
  keeps_declare fun _ reads _ name d' found fits =>
    (informs_of_writes (.single (.declared d))).phrase (reads name d' found fits)

theorem reads_declareGeneric (g : Generic) :
    (declareGeneric g).Keeps (Reads gap rest) (fun _ => True) fun _ => True :=
  (keeps_report _).bind fun _ _ => keeps_modify fun _ reads name d found fits =>
    (informs_of_writes (.single (.generic g))).phrase (reads name d found fits)

section Use

variable (blank : ∀ p, gap p → Blank p)

include blank

theorem ends_resolve_worded (reads : r.Reads gap rest) (name : String) :
    (Registry.resolve name).Ends r
      (fun _ r' => Worded (r.words gap rest) r' ∧
        ((r.words gap rest).Fits name.toList → (r.words gap rest).Phrase name.toList))
      fun _ r' => Worded (r.words gap rest) r' := by
  have primitives : ∀ name p, Primitive.ofSpelling? name = some p →
      (r.words gap rest).base name.toList := by
    intro name p spelled
    show r.Known (String.ofList name.toList)
    rw [String.ofList_toList]
    exact .primitive spelled
  exact (worded_resolveWithin primitives blank depthLimit [] name r reads.worded).mono
    (fun _ _ ends => ends) fun _ _ ends => ends.1

theorem reads_resolve (name : String) :
    (Registry.resolve name).Keeps (Reads gap rest) (fun _ => True) fun _ => True := by
  intro r reads
  have later : ∀ {r'}, Worded (r.words gap rest) r' → Writes r r' → r'.Reads gap rest :=
    fun worded writes name d found fits =>
      (informs_of_writes writes).phrase (worded.resolved name d found fits)
  exact ((ends_resolve_worded blank reads name).and (writes_resolve name r .refl)).mono
    (fun _ _ both => ⟨later both.1.1 both.2.1, trivial⟩)
    fun _ _ both => ⟨later both.1 both.2.1, trivial⟩

theorem reads_resolveNode (node : Node) :
    (resolveNode node).Keeps (Reads gap rest) (fun _ => True) fun _ => True :=
  keeps_resolveNode (fun _ => trivial) (reads_resolve blank) reads_addSynthesized node

end Use

/-! ## Registries in use -/

inductive Request
  | declare (d : Descriptor)
  | declareGeneric (g : Generic)
  | resolve (name : String)
  | resolveNode (node : Node)

def Request.apply (r : Registry) : Request → Registry
  | declare d => (Registry.declare d r).state
  | declareGeneric g => (Registry.declareGeneric g r).state
  | resolve name => (Registry.resolve name r).state
  | resolveNode node => (Registry.resolveNode node r).state

def afterRequests (requests : List Request) : Registry := requests.foldl Request.apply empty

theorem reads_afterRequests (blank : ∀ p, gap p → Blank p) (requests : List Request) :
    (afterRequests requests).Reads gap rest := by
  have step : ∀ r : Registry, r.Reads gap rest → ∀ request : Request,
      (request.apply r).Reads gap rest := by
    intro r reads request
    cases request with
    | declare d => exact (reads_declare d).state reads
    | declareGeneric g => exact (reads_declareGeneric g).state reads
    | resolve name => exact (reads_resolve blank name).state reads
    | resolveNode node => exact (reads_resolveNode blank node).state reads
  have run : ∀ (requests : List Request) (r : Registry), r.Reads gap rest →
      (requests.foldl Request.apply r).Reads gap rest := by
    intro requests
    induction requests with
    | nil => exact fun _ reads => reads
    | cons request further ih => exact fun r reads => ih _ (step r reads request)
  exact run requests empty fun _ _ no => nomatch no

/-- The declared names and those of the records that were made from nodes are canonical names, and
the bases of generic types are paths. -/
structure CanonicallyNamed (r : Registry) : Prop where
  declared : ∀ name d, r.declared.get? name = some d → documented.Phrase name.toList
  generics : ∀ base g, r.generics.get? base = some g → IsPath base.toList
  synthesized : ∀ name short members,
    r.resolved.get? name = some (.built name short .synthesized members) →
      documented.Phrase name.toList

/-- What is put together from the names that the registry knows is so from paths. -/
theorem CanonicallyNamed.phrase (named : r.CanonicallyNamed) {cs : List Char}
    (phrase : (r.words gap rest).Phrase cs)
    (canonical : ∀ cs, documented.Phrase cs → Phrase ⟨IsPath, IsPath, gap, rest⟩ cs) :
    Phrase ⟨IsPath, IsPath, gap, rest⟩ cs := by
  refine phrase.bind (fun cs known => ?_) (fun cs known => ?_) (fun _ empty => empty)
    (fun _ named _ => named) fun _ follows => follows
  · rw [← @String.toList_ofList cs]
    cases known with
    | primitive spelled => exact .base (isPath_of_spelling spelled)
    | declared held => exact canonical _ (named.declared _ _ held)
    | synthesized held => exact canonical _ (named.synthesized _ _ _ held)
  · obtain ⟨g, known⟩ := known
    rw [← @String.toList_ofList cs]
    exact named.generics _ g known

/-- Every name that resolves is of the grammar by which names are taken apart. It is a canonical
name just if nothing but blanks follows its marks and no argument is left out. -/
theorem phrase_of_resolved {requests : List Request} {name : String} {d : Descriptor}
    (named : (afterRequests requests).CanonicallyNamed)
    (resolved : (Registry.resolve name (afterRequests requests)).result = .ok d) :
    tolerant.Phrase name.toList ∧
      (documented.Phrase name.toList ↔ documented.Fits name.toList) := by
  have phrase : ∀ {gap rest : List Char → Prop}, (∀ p, gap p → Blank p) →
      Splits gap rest name.toList →
      ((afterRequests requests).words gap rest).Phrase name.toList := fun blank =>
    ((ends_resolve_worded blank (reads_afterRequests blank requests) name).of_ok resolved).2
  refine ⟨?_, fun canonical => canonical.parted.fits.1, fun fits => ?_⟩
  · exact named.phrase (phrase (fun _ blank => blank) (fits_tolerant _)) fun _ => Phrase.tolerant
  · exact named.phrase (phrase (fun _ no => no.elim) fits) fun _ canonical => canonical

/-- A box of points whose argument and mark have blanks around them, where the points were made from
a node. -/
theorem phrase_of_resolved_box :
    let box : Generic := ⟨"app::Box", 1, [("Item", .parameter 0)]⟩
    let point : Node := .mk none "app::Point" [.mk (some "X") "Int32" []]
    let requests : List Request := [.declareGeneric box, .resolveNode point]
    let name := "app::Box< app::Point [] > []"
    (afterRequests requests).CanonicallyNamed ∧
      (∃ d, (Registry.resolve name (afterRequests requests)).result = .ok d) ∧
      tolerant.Phrase name.toList ∧
        (documented.Phrase name.toList ↔ documented.Fits name.toList) := by
  intro box point requests name
  have path : ∀ s ∈ ["app::Box", "Int32", "app::Point"], IsPath s.toList := by
    simp only [List.forall_mem_cons]
    refine ⟨?_, ?_, ?_, List.forall_mem_nil _⟩
    all_goals exact ⟨⟨_, by decide, by decide, by simp⟩, rfl⟩
  have empty : (afterRequests requests).declared.entries.map Prod.fst = [] := by decide +kernel
  have bases : (afterRequests requests).generics.entries.map Prod.fst = ["app::Box"] := by
    decide +kernel
  have names : (afterRequests requests).resolved.entries.map Prod.fst =
      ["Int32", "app::Point"] := by
    decide +kernel
  have named : (afterRequests requests).CanonicallyNamed := by
    refine ⟨fun name d known => ?_, fun base g known => ?_, fun name short members known => ?_⟩
    · have mem := List.mem_map_of_mem (f := Prod.fst) (Cache.mem_of_get? known)
      rw [empty] at mem
      cases mem
    · have mem := List.mem_map_of_mem (f := Prod.fst) (Cache.mem_of_get? known)
      rw [bases] at mem
      exact path base (List.mem_append_left _ mem)
    · have mem := List.mem_map_of_mem (f := Prod.fst) (Cache.mem_of_get? known)
      rw [names] at mem
      exact .base (path name (List.mem_cons_of_mem _ mem))
  have found : ((Registry.resolve name (afterRequests requests)).result.toOption.map
      Descriptor.name).isSome = true := by decide +kernel
  rw [Option.isSome_map, Option.isSome_iff_exists] at found
  obtain ⟨d, resolved⟩ := found
  rw [toOption_eq_some] at resolved
  exact ⟨named, ⟨d, resolved⟩, phrase_of_resolved named resolved⟩

/-- A name with text after its mark resolves as if the text was not there. -/
theorem resolves_with_rest :
    let name := "Int32[]junk"
    (afterRequests []).CanonicallyNamed ∧
      (Registry.resolve name (afterRequests [])).result.toOption.map Descriptor.name =
        some "Int32[]" ∧
      ¬ documented.Phrase name.toList := by
  intro name
  refine ⟨?_, by decide +kernel, not_documented_of_rest (p := "junk".toList) ?_ ?_⟩
  · exact ⟨fun _ _ no => (nomatch no), fun _ _ no => (nomatch no), fun _ _ _ no => nomatch no⟩
  · decide
  · exact fun blank => absurd (blank 'j' (by decide)) (by decide)

end SchemaCodec.Registry
