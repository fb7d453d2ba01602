import SchemaCodec.Proofs.Engine.Extraction
import SchemaCodec.Proofs.Engine.StaticTypes
import SchemaCodec.Proofs.Schema.Arrangement
import SchemaCodec.Proofs.Schema.Completeness

/-! # The order of compilation

A record is compiled where the records that it embeds were compiled before it. So of all the orders
in which the types of an extracted schema may be listed, those that list every record after the ones
under its children are compiled, and any other one fails at the first record that is listed too
early.
-/

namespace SchemaCodec

open SchemaCodec.Action MessageType Catalog Discovery

/-- The type of the child has the type of the name under any number of sequences. -/
def Node.Holds (child : Node) (name : String) : Prop :=
  ∃ levels, child.typeName = TypeName.arrays name levels

namespace Schema

/-- Those of the names that the children hold are names of the nodes. -/
def Served (names : List String) (nodes children : List Node) : Prop :=
  ∀ child ∈ children, ∀ name ∈ names, child.Holds name → name ∈ nodes.map Node.typeName

/-- Every node comes after the nodes of the names that its children hold. -/
def Sequenced (names : List String) (nodes : List Node) : Prop :=
  ∀ before node after, nodes = before ++ node :: after → Served names before node.children

/-- The nodes are in order up to the one of the first name, whose first child that holds a name too
early holds the second one. -/
inductive FirstViolation (nodes : List Node) : String → String → Prop

  | mk {before after front back : List Node} {node child : Node} {dependency : String} :
      nodes = before ++ node :: after → Sequenced (nodes.map Node.typeName) before →
      node.children = front ++ child :: back → Served (nodes.map Node.typeName) before front →
      dependency ∈ nodes.map Node.typeName → child.Holds dependency →
      dependency ∉ before.map Node.typeName → FirstViolation nodes node.typeName dependency

variable {names : List String} {nodes before children : List Node} {node : Node}

theorem sequenced_concat (h : Sequenced names nodes) (served : Served names nodes node.children) :
    Sequenced names (nodes ++ [node]) := by
  intro before node' after split
  rcases List.eq_nil_or_concat after with rfl | ⟨after, last, rfl⟩
  · obtain ⟨rfl, same⟩ := List.append_inj' split rfl
    obtain rfl := List.singleton_inj.mp same
    exact served
  · rw [List.concat_eq_append, ← List.cons_append, ← List.append_assoc] at split
    obtain ⟨rfl, -⟩ := List.append_inj' split rfl
    exact h before node' after rfl

theorem FirstViolation.not_sequenced {typeName dependency : String}
    (h : FirstViolation nodes typeName dependency) :
    ¬ Sequenced (nodes.map Node.typeName) nodes := by
  intro sequenced
  cases h with
  | mk split _ children _ listed holds missing =>
    have served := sequenced _ _ _ split
    exact missing (served _ (by simp [children]) _ listed holds)

theorem FirstViolation.of_head {typeName dependency : String}
    (h : FirstViolation (node :: nodes) typeName dependency)
    (early : ¬ Served ((node :: nodes).map Node.typeName) [] node.children) :
    typeName = node.typeName ∧ dependency ∈ (node :: nodes).map Node.typeName ∧
      ∃ child ∈ node.children, child.Holds dependency := by
  cases h with
  | @mk before _ _ _ _ child _ split sequenced children _ listed holds _ =>
    cases before with
    | nil =>
      obtain ⟨rfl, -⟩ := List.cons.inj split
      exact ⟨rfl, listed, child, by simp [children], holds⟩
    | cons first before =>
      obtain ⟨rfl, -⟩ := List.cons.inj split
      exact absurd (sequenced [] _ _ rfl) early

@[simp] theorem served_nil : Served names nodes [] := by
  simp [Served]

theorem served_cons {child : Node} : Served names nodes (child :: children) ↔
    Served names nodes [child] ∧ Served names nodes children := by
  simp [Served]

theorem exists_first (h : ¬ Served names before children) : ∃ front child back dependency,
    children = front ++ child :: back ∧ Served names before front ∧ dependency ∈ names ∧
      child.Holds dependency ∧ dependency ∉ before.map Node.typeName := by
  induction children with
  | nil => simp at h
  | cons child children ih =>
    by_cases first : Served names before [child]
    · obtain ⟨front, child', back, dependency, rfl, served, rest⟩ :=
        ih fun served => h (served_cons.mpr ⟨first, served⟩)
      exact ⟨child :: front, child', back, dependency, rfl, served_cons.mpr ⟨first, served⟩, rest⟩
    · obtain ⟨dependency, listed, holds, missing⟩ : ∃ dependency ∈ names, child.Holds dependency ∧
          dependency ∉ before.map Node.typeName := by
        simpa [Served] using first
      exact ⟨[], child, children, dependency, rfl, served_nil, listed, holds, missing⟩

end Schema

open Schema

namespace Catalog

/-- The nodes are those of the records, which are declared by the program, once each. -/
structure Arranges (C : Catalog) (types : Set MessageType) (records : List Descriptor)
    (nodes : List Node) : Prop where
  unique : (nodes.map Node.typeName).Nodup
  complete : ∀ r ∈ records, r.name ∈ nodes.map Node.typeName
  entry : ∀ node ∈ nodes, ∃ id args, C.Occurs types (.record id args) ∧
    .declared id args ∈ records ∧ Closed C records (.declared id args) ∧
      node = (Extraction.entry C (.declared id args)).node

variable {C : Catalog} {types : Set MessageType} {records : List Descriptor} {nodes before : List Node}
  {t : MessageType} {ext : Extraction} {id : RecordId} {args : List MessageType} {node child : Node}

theorem arranges_perm (occurs : C.Occurs types t)
    (accepted : Extraction.ofDescriptor C t.describe = .ok ext)
    (perm : nodes.Perm ext.schema.types) : C.Arranges types ext.records nodes where
  unique := (perm.map _).nodup_iff.mpr (Extraction.nodup_types accepted)
  complete := by
    intro r hr
    have listed := perm.mem_iff.mpr ((Extraction.mem_types accepted).mpr ⟨r, hr, rfl⟩)
    exact List.mem_map.mpr ⟨_, listed, rfl⟩
  entry := by
    intro node mem
    obtain ⟨r, hr, rfl⟩ := (Extraction.mem_types accepted).mp (perm.mem_iff.mp mem)
    obtain ⟨⟨id, args, rfl, occurs'⟩, closed⟩ := (closed_of_accepted occurs accepted).1 r hr
    exact ⟨id, args, occurs', hr, closed, rfl⟩

theorem holds_iff (consistent : C.Consistent types) (occurs : C.Occurs types t)
    (covered : Covered records t.describe) (label : String)
    (listed : C.Occurs types (.record id args)) :
    (Node.member label t.name).Holds (MessageType.record id args).name ↔
      t.describe.innermost.isRecord = true ∧
        t.describe.innermost.name = (MessageType.record id args).name := by
  obtain ⟨levels, same⟩ := t.describe.exists_arrays
  rw [(depicts_describe occurs).name_eq] at same
  constructor
  · rintro ⟨levels', same'⟩
    have named : TypeName.arrays t.describe.innermost.name levels =
        TypeName.arrays (MessageType.record id args).name levels' := same.symm.trans same'
    rcases covered with ⟨p, -, inner⟩ | ⟨isRecord, -⟩
    · rw [inner] at named
      have no := (TypeName.arrays_inj (TypeName.atomic_name p) (consistent.atomic listed) named).1
      exact absurd no.symm (consistent.name_ne listed p)
    · refine ⟨isRecord, ?_⟩
      obtain ⟨t', inner, occurs'⟩ := exists_innermost occurs
      rw [inner] at isRecord named ⊢
      cases t' with
      | record id' args' =>
        exact (TypeName.arrays_inj (consistent.atomic occurs') (consistent.atomic listed) named).1
      | _ => cases isRecord
  · rintro ⟨-, named⟩
    exact ⟨levels, named ▸ same⟩

variable {compiled : String → Option Plan} {m : String × MessageType}

theorem Arranges.exists_record (h : C.Arranges types records nodes) {name : String}
    (mem : name ∈ nodes.map Node.typeName) :
    ∃ id args, C.Occurs types (.record id args) ∧ (MessageType.record id args).name = name := by
  obtain ⟨node, hnode, rfl⟩ := List.mem_map.mp mem
  obtain ⟨id, args, occurs, -, -, rfl⟩ := h.entry node hnode
  exact ⟨id, args, occurs, rfl⟩

theorem Arranges.ready (h : C.Arranges types records nodes) (consistent : C.Consistent types)
    (occurs : C.Occurs types t) (covered : Covered records t.describe) (label : String)
    (served : Served (nodes.map Node.typeName) before [.member label t.name])
    (plans : ∀ name ∈ before.map Node.typeName, ∃ plan, compiled name = some plan) :
    Ready compiled t := by
  apply (depicts_describe occurs).ready
  rcases covered with leaf | ⟨isRecord, r, hr, same⟩
  · exact .inl leaf
  · have listed := same ▸ h.complete r hr
    obtain ⟨id, args, occurs', named⟩ := h.exists_record listed
    refine .inr ⟨isRecord, plans _ ?_⟩
    apply served _ List.mem_cons_self _ listed
    rw [← named]
    exact (holds_iff consistent occurs (.inr ⟨isRecord, r, hr, same⟩) label occurs').mpr
      ⟨isRecord, named.symm⟩

end Catalog

namespace Engine

variable {C : Catalog} {limits : Limits} {t : MessageType} {records : List Descriptor}
  {all before nodes : List Node} {node : Node} {e : Engine} {ext : Extraction}

/-- The engine knows the records as the program declares them, and just the nodes are compiled. -/
structure Progress (C : Catalog) (limits : Limits) (t : MessageType) (records : List Descriptor)
    (before : List Node) (e : Engine) : Prop where
  serves : Serves C C limits {t} (fun _ _ => False) e
  declared : ∀ r ∈ records, e.registry.Declares r.name
  plan_iff : ∀ name, (∃ plan, e.plan? name = some plan) ↔ name ∈ before.map Node.typeName

theorem exists_plan?_note {c : Codec} {name : String} :
    (∃ plan, (e.note c).plan? name = some plan) ↔
      (∃ plan, e.plan? name = some plan) ∨ name = c.typeName := by
  by_cases same : name = c.typeName
  · subst same
    simp [plan?, note, Cache.get?_add_self]
  · simp [plan?, note, Cache.get?_add_of_ne same, same]

theorem Progress.note (h : Progress C limits t records before e) {id : RecordId}
    {args : List MessageType} {plan : Plan} (occurs : C.Occurs {t} (.record id args))
    (named : node.typeName = (MessageType.record id args).name) (fits : C.Fits plan (.record id args)) :
    Progress C limits t records (before ++ [node]) (e.note ⟨node.typeName, plan, e.limits⟩) where
  serves := h.serves.add_codec occurs named.symm fits h.serves.limits_eq
  declared := h.declared
  plan_iff := by
    intro name
    rw [exists_plan?_note, h.plan_iff]
    simp

theorem Progress.new (h : Progress C limits t records before e) {name : String}
    (apart : name ∉ before.map Node.typeName) : e.compiled.get? name = none := by
  cases found : e.compiled.get? name with
  | none => rfl
  | some c => exact absurd ((h.plan_iff name).mp ⟨c.plan, plan?_eq_some.mpr ⟨c, found, rfl⟩⟩) apart

theorem Progress.ends_resolveNode (h : Progress C limits t records before e)
    (consistent : C.Consistent {t}) {id : RecordId} {args : List MessageType}
    (lists : C.Lists {t} id args node) (mem : (Descriptor.declared id args) ∈ records) :
    (Registry.resolveNode node).Ends e.registry
      (fun d r => Depicts C C {t} d (.record id args) ∧
        Progress C limits t records before { e with registry := r })
      fun _ _ => False := by
  apply (Registry.ends_resolveNode_listed consistent h.serves.registry lists).mono
  · rintro d r ⟨faithful, same, depicts⟩
    have more : ∀ name, e.registry.Declares name → r.Declares name := fun name known => by
      rwa [Registry.Declares, same]
    exact ⟨depicts, h.serves.registry_eq faithful more, fun r hr => more _ (h.declared r hr),
      h.plan_iff⟩
  · rintro _ _ ⟨-, -, undeclared⟩
    rw [lists.named] at undeclared
    exact undeclared (h.declared _ mem)

theorem Progress.ends_compileNodes_served (h : Progress C limits t records before e)
    (consistent : C.Consistent {t}) (arranges : C.Arranges {t} records all) (mem : node ∈ all)
    (apart : node.typeName ∉ before.map Node.typeName)
    (served : Served (all.map Node.typeName) before node.children)
    {Q : Unit → Engine → Prop} {R : Error → Engine → Prop}
    (rest : ∀ e', Progress C limits t records (before ++ [node]) e' →
      (compileNodes nodes).Ends e' Q R) : (compileNodes (node :: nodes)).Ends e Q R := by
  obtain ⟨id, args, occurs, found, closed, rfl⟩ := arranges.entry node mem
  have lists : C.Lists {t} id args (Extraction.entry C (.declared id args)).node :=
    lists_entry consistent occurs (depicts_describe occurs) closed
  apply ends_compileNodes_new (h.new apart)
  apply (h.ends_resolveNode consistent lists found).mono
  · rintro d r ⟨depicts, h'⟩
    have ready : ∀ m ∈ C.members id args, Ready e.plan? m.2 := by
      intro m hm
      have covered := closed.covered (m.1, m.2.describe) (List.mem_map.mpr ⟨m, hm, rfl⟩)
      apply arranges.ready consistent (occurs.member hm) covered m.1
      · intro c hc
        obtain rfl := List.mem_singleton.mp hc
        exact served _ (lists.child m hm)
      · exact fun name listed => (h.plan_iff name).mpr listed
    obtain ⟨plan, chosen⟩ := exists_ofNode consistent lists depicts ready
    refine ⟨plan, h.serves.catalog_eq ▸ chosen, rest _ ?_⟩
    have fits := h.serves.linked.fits_ofNode consistent lists depicts chosen
    exact h'.note occurs lists.named fits
  · exact fun _ _ no => no.elim

theorem Progress.ends_compileNodes_violated (h : Progress C limits t records before e)
    (consistent : C.Consistent {t}) (arranges : C.Arranges {t} records all) (mem : node ∈ all)
    (apart : node.typeName ∉ before.map Node.typeName) {front back : List Node} {child : Node}
    {dependency : String} (split : node.children = front ++ child :: back)
    (served : Served (all.map Node.typeName) before front)
    (listed : dependency ∈ all.map Node.typeName) (holds : child.Holds dependency)
    (missing : dependency ∉ before.map Node.typeName) :
    (compileNodes (node :: nodes)).Ends e (fun _ _ => False) fun err _ =>
      err = .orderingViolation node.typeName dependency := by
  obtain ⟨id, args, occurs, found, closed, rfl⟩ := arranges.entry node mem
  have lists : C.Lists {t} id args (Extraction.entry C (.declared id args)).node :=
    lists_entry consistent occurs (depicts_describe occurs) closed
  have covered : ∀ m ∈ C.members id args, Covered records m.2.describe := fun m hm =>
    closed.covered (m.1, m.2.describe) (List.mem_map.mpr ⟨m, hm, rfl⟩)
  obtain ⟨m, hm, rfl⟩ := lists.only child (by simp [split])
  obtain ⟨id', args', occurs', rfl⟩ := arranges.exists_record listed
  obtain ⟨isRecord, named⟩ :=
    (holds_iff consistent (occurs.member hm) (covered m hm) m.1 occurs').mp holds
  apply ends_compileNodes_refused (h.new apart)
  apply (h.ends_resolveNode consistent lists found).mono
  · rintro d r ⟨depicts, -⟩
    have none : e.plan? m.2.describe.innermost.name = none := by
      rw [Engine.plan?, h.new (named ▸ missing), Option.map_none]
    have ready : ∀ m' ∈ C.members id args, .member m'.1 m'.2.name ∈ front →
        Ready e.plan? m'.2 := by
      intro m' hm' hfront
      apply arranges.ready consistent (occurs.member hm') (covered m' hm') m'.1
      · intro c hc
        obtain rfl := List.mem_singleton.mp hc
        exact served _ hfront
      · exact fun name listed => (h.plan_iff name).mpr listed
    have failed := ofNode_of_missing consistent lists depicts hm split ready isRecord none
    rw [named] at failed
    exact ⟨_, h.serves.catalog_eq.symm ▸ failed, rfl⟩
  · exact fun _ _ no => no.elim

/-- The nodes are compiled up to the first violation of their order. -/
theorem Progress.ends_compileNodes (h : Progress C limits t records before e)
    (consistent : C.Consistent {t}) (arranges : C.Arranges {t} records all)
    (split : all = before ++ nodes) (sequenced : Sequenced (all.map Node.typeName) before) :
    (compileNodes nodes).Ends e
      (fun _ e' => Progress C limits t records all e' ∧ Sequenced (all.map Node.typeName) all)
      fun err _ => ∃ typeName dependency, err = .orderingViolation typeName dependency ∧
        FirstViolation all typeName dependency := by
  induction nodes generalizing before e with
  | nil =>
    obtain rfl : all = before := by simpa using split
    exact ⟨h, sequenced⟩
  | cons node nodes ih =>
    have mem : node ∈ all := by simp [split]
    have apart : node.typeName ∉ before.map Node.typeName := by
      have unique := arranges.unique
      rw [split, List.map_append, List.map_cons, List.nodup_append] at unique
      exact fun old => unique.2.2 _ old _ List.mem_cons_self rfl
    by_cases served : Served (all.map Node.typeName) before node.children
    · apply h.ends_compileNodes_served consistent arranges mem apart served
      intro e' h'
      exact ih h' (by simp [split]) (sequenced_concat sequenced served)
    · obtain ⟨front, child, back, dependency, children, served, listed, holds, missing⟩ :=
        exists_first served
      apply (h.ends_compileNodes_violated consistent arranges mem apart children served listed holds
        missing).mono
      · exact fun _ _ no => no.elim
      · rintro err _ rfl
        exact ⟨_, dependency, rfl, .mk split sequenced children served listed holds missing⟩

theorem keeps_compiled (compiled : Cache String Codec) (t : MessageType) :
    (schemaOf t).Keeps (fun e => e.compiled = compiled) (fun _ => True) fun _ => True := by
  have counted : ∀ f, (count f).Keeps (fun e => e.compiled = compiled) (fun _ => True)
      fun _ => True := fun f => keeps_modify fun _ he => he
  have resolved : ∀ step : Action Registry Unit,
      (resolving step).Keeps (fun e => e.compiled = compiled) (fun _ => True) fun _ => True :=
    fun step => (keeps_trivial step).within (fun _ _ => trivial) fun _ _ _ he => he
  have extracted : (extract t.describe).Keeps (fun e => e.compiled = compiled) (fun _ => True)
      fun _ => True :=
    keeps_extract (fun e _ ext _ => ⟨trivial, resolved _⟩) fun _ _ _ _ => trivial
  exact keeps_schemaOf counted (fun _ _ _ _ => trivial) extracted (fun _ _ => trivial)
    fun _ _ he _ => he

theorem ends_register (limits : Limits) (consistent : C.Consistent {t})
    (accepted : Extraction.ofDescriptor C t.describe = .ok ext) :
    (register t).Ends (fresh C limits)
      (fun _ e => Progress C limits t ext.records [] e) fun _ _ => False := by
  have served := ends_schemaOf consistent (.of_mem rfl) (serves_fresh C limits {t})
  have nothing := keeps_compiled .empty t (fresh C limits) rfl
  rw [register, ends_bind]
  apply (served.and nothing).mono
  · rintro schema e ⟨⟨serves, ext', accepted', -, declared⟩, compiled, -⟩
    obtain rfl := Except.ok.inj (accepted.symm.trans accepted')
    refine ends_pure.mpr ⟨serves, declared, fun name => ?_⟩
    simp [plan?, compiled]
  · rintro err e ⟨⟨-, failed⟩, -⟩
    cases accepted.symm.trans failed

theorem Progress.ends_root (h : Progress C limits t records all e) (consistent : C.Consistent {t})
    (arranges : C.Arranges {t} records all) (covered : Covered records t.describe)
    (new : e.compiled.get? t.name = none) {record : Descriptor → Action Engine Codec} :
    (resolve t.name >>= fun d => if d.isRecord then record d else compileRoot t.name d).Ends e
      (fun _ _ => True) fun _ _ => False := by
  have occurs : C.Occurs {t} t := .of_mem rfl
  have described := depicts_describe occurs
  have found : t.describe.innermost.isRecord = true →
      ∃ r ∈ records, r.name = t.describe.innermost.name := by
    intro isRecord
    rcases covered with ⟨p, -, inner⟩ | ⟨-, known⟩
    · rw [inner] at isRecord
      cases isRecord
    · exact known
  have ready : Ready e.plan? t := by
    apply described.ready
    rcases covered with leaf | ⟨isRecord, r, hr, same⟩
    · exact .inl leaf
    · exact .inr ⟨isRecord, (h.plan_iff _).mpr (same ▸ arranges.complete r hr)⟩
  have resolved := Registry.ends_resolve_declared consistent h.serves.registry occurs
    (bound_of_covered described covered) fun id args levels listed same => by
      obtain ⟨isRecord, named⟩ := (holds_iff consistent occurs covered "" listed).mp ⟨levels, same⟩
      obtain ⟨r, hr, same⟩ := found isRecord
      exact named ▸ same ▸ h.declared r hr
  rw [ends_bind, resolve, ends_resolving]
  apply resolved.mono
  · rintro d r ⟨-, -, depicts⟩
    obtain ⟨plan, chosen⟩ := exists_chosen consistent depicts occurs ready
    rw [if_neg]
    · exact (ends_compileRoot_new (e := { e with registry := r }) new chosen).mpr trivial
    · intro isRecord
      obtain ⟨c, known, -⟩ := plan?_eq_some.mp (chosen.of_isRecord isRecord)
      cases new.symm.trans known
  · exact fun _ _ no => no.elim

/-- A schema that lists the types of an extracted one is compiled up to the first violation of their
order. -/
theorem Progress.ends_codecOfSchema (h : Progress C limits t ext.records [] e)
    (consistent : C.Consistent {t}) (accepted : Extraction.ofDescriptor C t.describe = .ok ext)
    (perm : all.Perm ext.schema.types) :
    (codecOfSchema ⟨ext.schema.typeName, ext.schema.fingerprint, all⟩).Ends e
      (fun _ _ => Sequenced (all.map Node.typeName) all)
      fun err _ => ∃ typeName dependency, err = .orderingViolation typeName dependency ∧
        FirstViolation all typeName dependency := by
  have occurs : C.Occurs {t} t := .of_mem rfl
  have arranges := arranges_perm occurs accepted perm
  obtain ⟨-, covered⟩ := closed_of_accepted occurs accepted
  have named : ext.schema.typeName = t.name :=
    (outlines_extracted consistent occurs (depicts_describe occurs) accepted).named
  have start : Sequenced (all.map Node.typeName) [] := fun before node after no => by simp at no
  rw [named, ends_codecOfSchema_new (h.new (by simp))]
  have counted : Progress C limits t ext.records []
      { e with counters := { e.counters with compileMisses := e.counters.compileMisses + 1 } } :=
    ⟨h.serves.counters_eq _, h.declared, h.plan_iff⟩
  apply (counted.ends_compileNodes consistent arranges rfl start).mono
  · rintro _ e' ⟨h', sequenced⟩
    rw [codecOfRoot, ends_bind, ends_get]
    dsimp only
    cases found : e'.compiled.get? t.name with
    | some c => exact sequenced
    | none =>
      apply (h'.ends_root consistent arranges covered found).mono
      · exact fun _ _ _ => sequenced
      · exact fun _ _ no => no.elim
  · exact fun err _ violated => violated

/-- In a new engine that was told of a type, the types of its schema are compiled in just the orders
in which every record comes after the ones under its children; where an order is not of this kind,
compilation fails at its first violation. -/
theorem compiles_sequenced (limits : Limits) (consistent : C.Consistent {t})
    (accepted : Extraction.ofDescriptor C t.describe = .ok ext)
    (perm : all.Perm ext.schema.types) :
    (register t (fresh C limits)).result = .ok () ∧
    ((∃ c, (codecOfSchema ⟨ext.schema.typeName, ext.schema.fingerprint, all⟩
      (register t (fresh C limits)).state).result = .ok c) ↔
        Sequenced (all.map Node.typeName) all) ∧
    ∀ err, (codecOfSchema ⟨ext.schema.typeName, ext.schema.fingerprint, all⟩
      (register t (fresh C limits)).state).result = .error err →
        ∃ typeName dependency, err = .orderingViolation typeName dependency ∧
          FirstViolation all typeName dependency := by
  obtain ⟨_, registered, h⟩ := (ends_register limits consistent accepted).result
  have ends := h.ends_codecOfSchema consistent accepted perm
  refine ⟨registered, ⟨?_, ?_⟩, fun err failed => ends.of_error failed⟩
  · rintro ⟨c, done⟩
    exact ends.of_ok done
  · intro sequenced
    cases result : (codecOfSchema ⟨ext.schema.typeName, ext.schema.fingerprint, all⟩
        (register t (fresh C limits)).state).result with
    | ok c => exact ⟨c, rfl⟩
    | error err =>
      obtain ⟨typeName, dependency, -, violation⟩ := ends.of_error result
      exact absurd sequenced violation.not_sequenced

theorem record_of_occurs_line {id : RecordId} {args : List MessageType}
    (h : Extraction.lines.Occurs {Extraction.line} (.record id args)) :
    .record id args = Extraction.line ∨ .record id args = Extraction.dot := by
  have closed : ∀ t, Extraction.lines.Occurs {Extraction.line} t → t = Extraction.line ∨
      t.describe.innermost = Extraction.dot.describe ∨ t = .scalar .int8 := by
    intro t h
    induction h with
    | of_mem mem => exact .inl mem
    | element _ ih =>
      rcases ih with no | inner | no
      · cases no
      · exact .inr (.inl inner)
      · cases no
    | member _ mem ih =>
      rcases ih with same | inner | no
      · cases same
        rcases List.mem_cons.mp mem with same | mem
        · cases same
          exact .inr (.inl rfl)
        · cases List.mem_singleton.mp mem
          exact .inr (.inl rfl)
      · cases inner
        cases List.mem_singleton.mp mem
        exact .inr (.inr rfl)
      · cases no
  rcases closed _ h with same | inner | no
  · exact .inl same
  · cases inner
    exact .inr rfl
  · cases no

theorem consistent_line : Extraction.lines.Consistent {Extraction.line} := by
  apply consistent_of_declarations
  · intro id args occurs
    rcases record_of_occurs_line occurs with same | same
    · cases same
      exact ⟨TypeName.atomic_of_unbracketed (by decide), by decide⟩
    · cases same
      exact ⟨TypeName.atomic_of_unbracketed (by decide), by decide⟩
  · intro id args occurs no
    rcases record_of_occurs_line occurs with same | same
    · cases same
      cases no
    · cases same
      cases no
  · intro id args id' args' occurs occurs' named
    rcases record_of_occurs_line occurs with same | same <;>
      rcases record_of_occurs_line occurs' with same' | same' <;> cases same <;> cases same'
    · exact ⟨rfl, .nil⟩
    · exact absurd named (by decide)
    · exact absurd named (by decide)
    · exact ⟨rfl, .nil⟩

/-- A line cannot be compiled before the dots that it embeds. -/
theorem compiles_sequenced_line :
    (codecOfSchema ⟨"Line", Fingerprint.ofString "Line",
      [.mk none "Line" [.member "from" "Dot", .member "to" "Dot[][]"],
        .mk none "Dot" [.member "x" "Int8"]]⟩
      (register Extraction.line (fresh Extraction.lines .standard)).state).result =
        .error (.orderingViolation "Line" "Dot") := by
  have accepted : Extraction.ofDescriptor Extraction.lines Extraction.line.describe =
      .ok ⟨⟨"Line", Fingerprint.ofString "Line", [.mk none "Dot" [.member "x" "Int8"],
        .mk none "Line" [.member "from" "Dot", .member "to" "Dot[][]"]]⟩,
        [Extraction.line.describe, Extraction.dot.describe]⟩ := rfl
  obtain ⟨-, ok_iff, errors⟩ :=
    compiles_sequenced .standard consistent_line accepted (.swap _ _ _)
  have early : ¬ Served ["Line", "Dot"] [] [.member "from" "Dot", .member "to" "Dot[][]"] := by
    intro served
    have before := served (.member "from" "Dot") (by simp) "Dot" (by simp) ⟨0, rfl⟩
    simp at before
  cases result : (codecOfSchema ⟨"Line", Fingerprint.ofString "Line",
      [.mk none "Line" [.member "from" "Dot", .member "to" "Dot[][]"],
        .mk none "Dot" [.member "x" "Int8"]]⟩
      (register Extraction.line (fresh Extraction.lines .standard)).state).result with
  | ok c => exact absurd (ok_iff.mp ⟨c, result⟩ [] _ _ rfl) early
  | error err =>
    obtain ⟨typeName, dependency, rfl, violation⟩ := errors err result
    obtain ⟨rfl, listed, child, mem, levels, held⟩ := violation.of_head early
    have dots : ∃ depth, child.typeName = TypeName.arrays "Dot" depth := by
      rcases List.mem_cons.mp mem with rfl | mem
      · exact ⟨0, rfl⟩
      · obtain rfl := List.mem_singleton.mp mem
        exact ⟨2, rfl⟩
    obtain ⟨depth, dots⟩ := dots
    have atomic : ∀ name ∈ ["Line", "Dot"], TypeName.Atomic name := by
      rintro _ (_ | ⟨_, _ | ⟨_, no⟩⟩)
      · exact TypeName.atomic_of_unbracketed (by decide)
      · exact TypeName.atomic_of_unbracketed (by decide)
      · cases no
    obtain ⟨rfl, -⟩ := TypeName.arrays_inj (atomic "Dot" (by simp)) (atomic dependency listed)
      (dots.symm.trans held)
    rfl

end Engine

end SchemaCodec
