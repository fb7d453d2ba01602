import SchemaCodec.Proofs.Schema.Arrangement
import SchemaCodec.Proofs.Schema.Rejection
import SchemaCodec.Proofs.TypeName.Short

/-! # Types made from listed records

A type that is made from the records that a schema lists leads to these records only, each with the
members that its node tells. So it has a schema, and that one lists no other nodes.
-/

namespace SchemaCodec

open Relation Descriptor

/-- The name does not spell a primitive in a way of its own. -/
def TypeName.Canonical (name : String) : Prop :=
  ∃ base levels, name = arrays base levels ∧ Atomic base ∧
    ∀ p, Primitive.ofSpelling? base = some p → base = p.name

/-- The type consists of records with the members that the nodes of their names tell. -/
inductive Descriptor.MadeFrom (nodes : List Node) : Descriptor → Prop

  | primitive {p : Primitive} : p ≠ .decimal → MadeFrom nodes (.primitive p)

  | sequence {element : Descriptor} : MadeFrom nodes element →
      MadeFrom nodes (.sequence .array element)

  | record {name : String} {members : List (String × Descriptor)} :
      .mk none name (members.map fun m => .member m.1 m.2.name) ∈ nodes →
      (∀ m ∈ members, MadeFrom nodes m.2) →
      MadeFrom nodes (.built name (TypeName.short name) .synthesized members)

namespace Descriptor

variable {C : Catalog} {S : Schema} {nodes : List Node} {root d d' r r' : Descriptor}

theorem MadeFrom.mono {more : List Node} (h : MadeFrom nodes d) (sub : nodes ⊆ more) :
    MadeFrom more d := by
  induction h with
  | primitive coded => exact .primitive coded
  | sequence _ ih => exact .sequence ih
  | record listed _ ih => exact .record (sub listed) ih

theorem MadeFrom.arrays (h : MadeFrom nodes d) (levels : Nat) :
    MadeFrom nodes (d.arrays levels) := by
  induction levels with
  | zero => exact h
  | succ levels ih => exact .sequence ih

theorem hereditary_madeFrom (C : Catalog) (nodes : List Node) :
    Discovery.Hereditary C (MadeFrom nodes) where
  innermost := by
    intro d h
    induction h with
    | primitive coded => exact .primitive coded
    | sequence _ ih => exact ih
    | record listed made _ => exact .record listed made
  member := by
    intro d h m mem
    cases h with
    | primitive => cases mem
    | sequence => cases mem
    | record _ made => exact made m mem

theorem MadeFrom.reached (h : MadeFrom nodes root) (reached : Reaches C root d) :
    MadeFrom nodes d := by
  induction reached with
  | root => exact h
  | element _ ih =>
    cases ih with
    | sequence made => exact made
  | member _ mem ih => exact (hereditary_madeFrom C nodes).member _ ih _ mem

theorem MadeFrom.mem_nodes (h : MadeFrom nodes d) (isRecord : d.isRecord = true) (C : Catalog) :
    .mk none d.name ((d.members C).map fun m => .member m.1 m.2.name) ∈ nodes := by
  cases h with
  | primitive => cases isRecord
  | sequence => cases isRecord
  | record listed _ => exact listed

theorem map_fst_of_children {members : List (String × Descriptor)} {names : List String}
    (same : (members.map fun m => Node.member m.1 m.2.name).map Node.name = names.map some) :
    members.map Prod.fst = names := by
  refine List.map_injective_iff.mpr (Option.some_injective _) ?_
  rw [← same, List.map_map, List.map_map]
  rfl

theorem MadeFrom.entry_node (ordered : ∀ node ∈ nodes, node.Ordered)
    (h : MadeFrom nodes r) (isRecord : r.isRecord = true) :
    (Extraction.entry C r).node ∈ nodes := by
  have mem := h.mem_nodes isRecord C
  obtain ⟨names, same, ascending⟩ := ordered _ mem
  obtain rfl := map_fst_of_children same
  have sorted : Fields.Sorted ((r.members C).map fun m => (m.1, m.2.name)) :=
    List.pairwise_map.mpr (List.pairwise_map.mp ascending)
  have children : Extraction.children C r =
      (r.members C).map fun m => .member m.1 m.2.name := by
    show (Fields.ofList ((r.members C).map fun m => (m.1, m.2.name))).map _ = _
    rw [Fields.ofList_of_sorted sorted, List.map_map]
    rfl
  rw [Extraction.entry, children]
  exact mem

section Distinct

variable (hS : S.Distinct)

include hS

theorem MadeFrom.exists_base (h : MadeFrom S.types d) : TypeName.Atomic d.innermost.name ∧
    ∃ levels, d.name = TypeName.arrays d.innermost.name levels ∧
      d.shortName = TypeName.arrays (TypeName.short d.innermost.name) levels := by
  induction h with
  | @primitive p _ =>
    refine ⟨TypeName.atomic_name p, 0, rfl, ?_⟩
    simp only [shortName, innermost, Descriptor.name, TypeName.arrays, TypeName.short_name]
  | sequence _ ih =>
    obtain ⟨atomic, levels, named, short⟩ := ih
    exact ⟨atomic, levels + 1, congrArg TypeName.array named, congrArg TypeName.array short⟩
  | record listed _ _ => exact ⟨(hS.wellFormed _ listed).toAtomic, 0, rfl, rfl⟩

theorem MadeFrom.shortName_eq (h : MadeFrom S.types d) : d.shortName = TypeName.short d.name := by
  obtain ⟨atomic, levels, named, short⟩ := h.exists_base hS
  rw [short, named, TypeName.short_arrays atomic]

theorem MadeFrom.wellFormed (h : MadeFrom S.types d) (isRecord : d.isRecord = true) :
    TypeName.WellFormed d.name :=
  hS.wellFormed _ (h.mem_nodes isRecord ⟨fun _ => ⟨[], true, .declared⟩, 0⟩)

theorem MadeFrom.innermost_of_name (h : MadeFrom S.types d) {base : String} {levels : Nat}
    (named : d.name = TypeName.arrays base levels) (wellFormed : TypeName.WellFormed base) :
    d.innermost.isRecord = true ∧ d.innermost.name = base := by
  obtain ⟨atomic, levels', same, -⟩ := h.exists_base hS
  obtain ⟨own, -⟩ := TypeName.arrays_inj atomic wellFormed.toAtomic (same.symm.trans named)
  refine ⟨?_, own⟩
  cases inner : d.innermost with
  | primitive p =>
    rw [inner] at own
    exact absurd own.symm (wellFormed.ne_name p)
  | parameter i =>
    have made := (hereditary_madeFrom ⟨fun _ => ⟨[], true, .declared⟩, 0⟩ _).innermost _ h
    rw [inner] at made
    cases made
  | sequence container element => exact absurd inner (Discovery.innermost_ne_sequence d _ _)
  | _ => rfl

theorem MadeFrom.alike (h : MadeFrom S.types d) (h' : MadeFrom S.types d')
    (same : d.name = d'.name) : Alike d d' := by
  induction h generalizing d' with
  | @primitive p _ =>
    cases h' with
    | @primitive p' _ =>
      obtain rfl : p = p' := by
        have spelled := TypeName.ofSpelling?_name p
        rw [show p.name = p'.name from same, TypeName.ofSpelling?_name] at spelled
        exact (Option.some.inj spelled).symm
      exact .primitive p
    | sequence => exact absurd same ((TypeName.atomic_name p).ne_array _)
    | record listed => exact absurd same.symm ((hS.wellFormed _ listed).ne_name p)
  | sequence _ ih =>
    cases h' with
    | primitive => exact absurd same.symm ((TypeName.atomic_name _).ne_array _)
    | sequence made => exact .sequence (ih made (TypeName.array_inj same))
    | record listed => exact absurd same.symm ((hS.wellFormed _ listed).toAtomic.ne_array _)
  | record listed _ _ =>
    cases h' with
    | primitive => exact absurd same ((hS.wellFormed _ listed).ne_name _)
    | sequence => exact absurd same ((hS.wellFormed _ listed).toAtomic.ne_array _)
    | record => exact .record rfl rfl same

theorem MadeFrom.sameDefinition (h : MadeFrom S.types r) (h' : MadeFrom S.types r')
    (isRecord : r.isRecord = true) (isRecord' : r'.isRecord = true) (same : r.name = r'.name) :
    SameDefinition C r r' := by
  have nodes := hS.node_eq (h.mem_nodes isRecord C) (h'.mem_nodes isRecord' C) same
  injection nodes with _ _ children
  have members := forall₂_of_map_eq children
  have builds : ∀ {r : Descriptor}, MadeFrom S.types r → r.constructible C = true := by
    intro r made
    cases made <;> rfl
  refine ⟨(builds h).trans (builds h').symm, members.imp ?_⟩
  rintro m m' ⟨equal, mem, mem'⟩
  injection equal with label typeName
  have hereditary := hereditary_madeFrom C S.types
  exact ⟨Option.some.inj label, (hereditary.member _ h m mem).alike hS
    (hereditary.member _ h' m' mem') typeName⟩

theorem MadeFrom.unambiguous (h : MadeFrom S.types root) : Unambiguous C root :=
  fun _ _ reached reached' isRecord isRecord' same =>
    (h.reached reached).sameDefinition hS (h.reached reached') isRecord isRecord' same

end Distinct

section Arranged

variable (hS : S.Arranged)

include hS

theorem MadeFrom.nodup_members (h : MadeFrom S.types r) (isRecord : r.isRecord = true) :
    ((r.members C).map Prod.fst).Nodup := by
  obtain ⟨names, same, unique⟩ := hS.named _ (h.mem_nodes isRecord C)
  exact map_fst_of_children same ▸ unique

theorem MadeFrom.clear (h : MadeFrom S.types root) : Clear C root := by
  intro d reached obstructed
  have made := h.reached reached
  cases obstructed with
  | decimal =>
    cases made with
    | primitive coded => exact coded rfl
  | parameter => cases made
  | noDefault isRecord stuck =>
    cases made with
    | record => cases stuck
    | _ => cases isRecord
  | duplicate isRecord twice => exact twice (made.nodup_members hS isRecord)

theorem MadeFrom.mem_before (h : MadeFrom S.types r) {before after : List Node} {node : Node}
    (split : S.types = before ++ node :: after) (own : node.typeName = r.name)
    {m : String × Descriptor} (mem : m ∈ r.members C) (isRecord : m.2.innermost.isRecord = true) :
    m.2.innermost.name ∈ before.map Node.typeName := by
  have hereditary := hereditary_madeFrom C S.types
  have made := hereditary.member _ h m mem
  obtain ⟨atomic, levels', named', -⟩ := made.exists_base hS.toDistinct
  obtain rfl := hS.node_eq (split ▸ List.mem_append_right _ List.mem_cons_self)
    (h.mem_nodes (isRecord_of_mem_members mem) C) own
  obtain ⟨base, levels, named, refers⟩ :=
    hS.ordered _ _ _ split _ (List.mem_map_of_mem mem)
  have sub : before ⊆ S.types := split ▸ List.subset_append_left _ _
  obtain ⟨rfl, -⟩ := TypeName.arrays_inj
    (Schema.atomic_of_refersBase hS.toDistinct sub refers) atomic (named.symm.trans named')
  rcases refers with ⟨p, -, spelled⟩ | ⟨other, hother, same⟩
  · have wellFormed := (hereditary.innermost _ made).wellFormed hS.toDistinct isRecord
    cases spelled.symm.trans wellFormed.foreign
  · exact List.mem_map.mpr ⟨other, hother, same.symm⟩

theorem MadeFrom.acyclic (h : MadeFrom S.types root) :
    ¬ ∃ name, TransGen (Embeds C root) name name := by
  let place := fun name => (S.types.map Node.typeName).idxOf name
  have step : ∀ name other, Embeds C root name other → place other < place name := by
    rintro _ other ⟨r, reached, rfl, m, mem, isRecord, rfl⟩
    have made := h.reached reached
    obtain ⟨before, after, split⟩ :=
      List.append_of_mem (made.mem_nodes (isRecord_of_mem_members mem) C)
    have earlier := made.mem_before hS split rfl mem isRecord
    have unique := hS.unique
    simp only [place]
    rw [split, List.map_append, List.map_cons] at unique ⊢
    have apart : r.name ∉ before.map Node.typeName := fun again =>
      (List.nodup_append.mp unique).2.2 _ again _ List.mem_cons_self rfl
    rw [List.idxOf_append_of_mem earlier, List.idxOf_append_of_notMem apart]
    exact Nat.lt_add_right _ (List.idxOf_lt_length_of_mem earlier)
  rintro ⟨name, cycle⟩
  have less : ∀ other, TransGen (Embeds C root) name other → place other < place name := by
    intro other path
    induction path with
    | single first => exact step _ _ first
    | tail _ last ih => exact (step _ _ last).trans ih
  exact Nat.lt_irrefl _ (less name cycle)

end Arranged

end Descriptor

namespace Extraction

variable {C K : Catalog} {S : Schema} {root d : Descriptor} {ext : Extraction}

theorem exists_madeFrom (hS : S.Arranged) (ordered : ∀ node ∈ S.types, node.Ordered)
    (made : d.MadeFrom S.types) (fits : S.types.length ≤ C.capacity) :
    ∃ ext, ofDescriptor C d = .ok ext ∧ ext.schema.types ⊆ S.types := by
  have bounded : Bounded C d := by
    refine ⟨S.types.map Node.typeName, by rwa [List.length_map], fun r reached isRecord => ?_⟩
    exact List.mem_map.mpr ⟨_, (made.reached reached).mem_nodes isRecord C, rfl⟩
  rcases ofDescriptor_cases (made.unambiguous hS.toDistinct) bounded with
    ⟨ext, extracted, -⟩ | ⟨-, -, -, obstructed⟩ | ⟨-, -, -, cycle, -⟩
  · refine ⟨ext, extracted, fun node mem => ?_⟩
    obtain ⟨r, hr, rfl⟩ := (mem_types extracted).mp mem
    obtain ⟨isRecord, listed, -⟩ := (Discovery.closed_records
      (hereditary_madeFrom C S.types) made (ofDescriptor_eq_ok extracted).1).1 r hr
    exact listed.entry_node ordered isRecord
  · exact absurd (made.clear hS) obstructed
  · exact absurd cycle (made.acyclic hS)

theorem exists_reached (unambiguous : Unambiguous C root) (h : ofDescriptor C root = .ok ext)
    (hS : ext.schema.Distinct) (made : d.MadeFrom ext.schema.types) (named : d.name = root.name)
    (isRecord : root.innermost.isRecord = true) {name : String}
    (path : ReflTransGen (Embeds C root) root.innermost.name name) :
    ∃ r, Reaches K d r ∧ r.isRecord = true ∧ r.name = name := by
  obtain ⟨found, -⟩ := ofDescriptor_eq_ok h
  obtain ⟨closed, covered⟩ := Discovery.reached_records unambiguous found
  have wellFormed : ∀ d, Reaches C root d → d.innermost.isRecord = true →
      TypeName.WellFormed d.innermost.name := by
    intro d reached isRecord
    obtain ⟨r, hr, same⟩ := (covered _ reached.innermost).exists_found
      ((innermost_of_isRecord isRecord).symm ▸ isRecord)
    exact same ▸ hS.wellFormed _ ((mem_types h).mpr ⟨r, hr, rfl⟩)
  induction path with
  | refl =>
    obtain ⟨levels, same⟩ := root.exists_arrays
    obtain ⟨record, own⟩ := made.innermost_of_name hS (named.trans same)
      (wellFormed root .root isRecord)
    exact ⟨d.innermost, reaches_innermost K d, record, own⟩
  | tail _ last ih =>
    obtain ⟨r, reached, isRecord', own⟩ := ih
    obtain ⟨r₀, reached₀, same₀, m₀, mem₀, inner₀, rfl⟩ := last
    have isRecord₀ := isRecord_of_mem_members mem₀
    -- The node of the record has a child for the member, and so has the record made from it.
    have listed := (made.reached reached).mem_nodes isRecord' K
    have children := children_of_reaches unambiguous h listed reached₀ isRecord₀
      (same₀.trans own.symm)
    obtain ⟨m, mem, same⟩ := List.mem_map.mp
      (children.mem_iff.mpr (List.mem_map_of_mem mem₀))
    injection same with _ typeName
    obtain ⟨levels, marks⟩ := m₀.2.exists_arrays
    have reached' := reached.member mem
    obtain ⟨record, own'⟩ := (made.reached reached').innermost_of_name hS
      (typeName.trans marks) (wellFormed _ (reached₀.member mem₀) inner₀)
    exact ⟨m.2.innermost, reached'.innermost, record, own'⟩

theorem canonical_of_covered {found : List Descriptor} (covered : Discovery.Covered found d)
    (wellFormed : ∀ r ∈ found, TypeName.WellFormed r.name) : TypeName.Canonical d.name := by
  obtain ⟨levels, same⟩ := d.exists_arrays
  rcases covered with ⟨p, -, inner⟩ | ⟨-, r, hr, own⟩
  · refine ⟨p.name, levels, by rw [same, inner]; rfl, TypeName.atomic_name p, fun p' spelled => ?_⟩
    rw [TypeName.ofSpelling?_name] at spelled
    rw [Option.some.inj spelled]
  · rw [← own] at same
    refine ⟨r.name, levels, same, (wellFormed r hr).toAtomic, fun p spelled => ?_⟩
    cases spelled.symm.trans (wellFormed r hr).foreign

theorem references (h : ofDescriptor C root = .ok ext)
    (wellFormed : ∀ r ∈ ext.records, TypeName.WellFormed r.name) {before after : List Node}
    {node child : Node} (split : ext.schema.types = before ++ node :: after)
    (mem : child ∈ node.children) : ∃ name typeName, child = .member name typeName ∧
      Schema.Refers before typeName ∧ TypeName.Canonical typeName := by
  have refers := ordered_children h split mem
  have listed : node ∈ ext.schema.types := split ▸ List.mem_append_right _ List.mem_cons_self
  obtain ⟨r, hr, rfl⟩ := (mem_types h).mp listed
  obtain ⟨closed, -⟩ := Discovery.closed_records (Discovery.hereditary_true C) trivial
    (ofDescriptor_eq_ok h).1
  obtain ⟨m, member, rfl⟩ := mem_children mem
  exact ⟨m.1, m.2.name, rfl, refers,
    canonical_of_covered ((closed r hr).2.2.covered m member) wellFormed⟩

/-- A type of the name of the root that is made from its schema has a schema with the same nodes. -/
theorem exists_reextracted (unambiguous : Unambiguous C root) (h : ofDescriptor C root = .ok ext)
    (wellFormed : ∀ r ∈ ext.records, TypeName.WellFormed r.name)
    (made : d.MadeFrom ext.schema.types) (named : d.name = root.name)
    (fits : ext.schema.types.length ≤ K.capacity) :
    ∃ ext', ofDescriptor K d = .ok ext' ∧ ext'.schema.types.Perm ext.schema.types := by
  have hS := arranged_schema h wellFormed
  obtain ⟨ext', extracted, sub⟩ := exists_madeFrom hS (ordered_types h) made fits
  have apart : ∀ {nodes : List Node}, (nodes.map Node.typeName).Nodup → nodes.Nodup :=
    fun unique => .of_map _ unique
  refine ⟨ext', extracted, (List.perm_ext_iff_of_nodup (apart (nodup_types extracted))
    (apart (nodup_types h))).mpr fun node => ⟨fun mem => sub mem, fun mem => ?_⟩⟩
  obtain ⟨r₀, hr₀, rfl⟩ := (mem_types h).mp mem
  obtain ⟨closed, -⟩ := Discovery.reached_records unambiguous (ofDescriptor_eq_ok h).1
  obtain ⟨isRecord₀, reached₀, -⟩ := closed r₀ hr₀
  obtain ⟨start, path⟩ := reached₀.embeds ((innermost_of_isRecord isRecord₀).symm ▸ isRecord₀)
  rw [innermost_of_isRecord isRecord₀] at path
  obtain ⟨r, reached, isRecord, own⟩ :=
    exists_reached (K := K) unambiguous h hS.toDistinct made named start path
  have again := (Discovery.mem_names (made.unambiguous hS.toDistinct)
    (ofDescriptor_eq_ok extracted).1).mpr ⟨r, reached, isRecord, own⟩
  obtain ⟨r', hr', same⟩ := List.mem_map.mp again
  have listed := (mem_types extracted).mpr ⟨r', hr', rfl⟩
  rwa [hS.node_eq mem (sub listed) same.symm]

theorem length_types (h : ofDescriptor C root = .ok ext) :
    ext.schema.types.length = ext.records.length := by
  obtain ⟨-, -, entries, types, -, perm⟩ := ofDescriptor_eq_ok h
  rw [types, List.length_map, perm.length_eq, List.length_map]

theorem inhabited_types (h : ofDescriptor C root = .ok ext)
    (inhabited : ∀ r ∈ ext.records, r.members C ≠ []) :
    ∀ node ∈ ext.schema.types, node.children ≠ [] := by
  intro node mem empty
  obtain ⟨r, hr, rfl⟩ := (mem_types h).mp mem
  obtain ⟨closed, -⟩ := Discovery.closed_records (Discovery.hereditary_true C) trivial
    (ofDescriptor_eq_ok h).1
  obtain ⟨m, members, same⟩ := List.exists_cons_of_ne_nil (inhabited r hr)
  have child := exists_child (closed r hr).2.2.unique (same ▸ List.mem_cons_self)
  rw [show children C r = [] from empty] at child
  cases child

theorem fingerprint_eq (h : ofDescriptor C root = .ok ext) :
    ext.schema.fingerprint = Fingerprint.ofString root.shortName := by
  obtain ⟨records, -, h⟩ := bind_eq_ok.mp h
  obtain ⟨entries, -, h⟩ := bind_eq_ok.mp h
  obtain rfl := return_eq_ok.mp h
  rfl

end Extraction

end SchemaCodec
