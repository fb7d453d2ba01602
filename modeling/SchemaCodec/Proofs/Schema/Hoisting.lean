import SchemaCodec.Proofs.Registry.Synthesis
import SchemaCodec.Proofs.Schema.Extraction

/-! # Definitions inside nodes

A schema written by hand may define a record where a child refers to it. Such a schema is flat once
every definition is listed as a node of its own before the node around it, and what is listed again
under a name changes nothing.
-/

namespace SchemaCodec

/-- The name is that of a primitive with an encoding or a well-formed name of a record, under any
number of marks of sequences. -/
def TypeName.Regular (name : String) : Prop :=
  ∃ base levels, name = arrays base levels ∧
    ((∃ p, p ≠ .decimal ∧ Primitive.ofSpelling? base = some p) ∨ WellFormed base)

namespace Node

def reference (node : Node) : Node := .mk node.name node.typeName []

def flat (node : Node) : Node := .mk node.name node.typeName (node.children.map reference)

mutual

/-- The definitions inside a node, each after those inside itself. -/
def definitions : Node → List Node
  | mk _ _ children => definitionsAll children

def definitionsAll : List Node → List Node
  | [] => []
  | child :: others =>
    definitions child ++ (if child.children = [] then [] else [child.flat]) ++ definitionsAll others

end

variable {node child : Node} {children : List Node}

theorem typeName_flat (node : Node) : node.flat.typeName = node.typeName := rfl

theorem reference_eq (childless : node.children = []) : node.reference = node := by
  cases node
  obtain rfl : _ = _ := childless
  rfl

theorem flat_flat (node : Node) : node.flat.flat = node.flat := by
  show Node.mk _ _ ((node.children.map reference).map reference) = .mk _ _ _
  rw [List.map_map]
  rfl

theorem map_name_reference (children : List Node) :
    (children.map reference).map name = children.map name := by
  rw [List.map_map]
  rfl

theorem flat_mem_definitions (mem : child ∈ node.children) (inhabited : child.children ≠ []) :
    child.flat ∈ node.definitions := by
  obtain ⟨name, typeName, children⟩ := node
  rw [definitions]
  induction children with
  | nil => cases mem
  | cons first others ih =>
    rw [definitionsAll, List.mem_append, List.mem_append]
    rcases List.mem_cons.mp mem with rfl | mem
    · rw [if_neg inhabited]
      exact .inl (.inr (List.mem_singleton.mpr rfl))
    · exact .inr (ih mem)

mutual

theorem flat_of_mem_definitions : ∀ node : Node, ∀ definition ∈ node.definitions,
    ∃ own : Node, definition = own.flat
  | mk _ _ children => fun definition mem => flat_of_mem_definitionsAll children definition mem

theorem flat_of_mem_definitionsAll : ∀ children : List Node,
    ∀ definition ∈ definitionsAll children, ∃ own : Node, definition = own.flat
  | [] => fun _ mem => absurd mem List.not_mem_nil
  | child :: others => by
    intro definition mem
    rw [definitionsAll, List.mem_append, List.mem_append] at mem
    rcases mem with (inside | own) | later
    · exact flat_of_mem_definitions child definition inside
    · split at own
      · cases own
      · exact ⟨child, List.mem_singleton.mp own⟩
    · exact flat_of_mem_definitionsAll others definition later

end

end Node

namespace Schema

/-- The nodes with every definition inside them listed before. -/
def hoisted (S : Schema) : Schema :=
  { S with types := S.types.flatMap fun node => node.definitions ++ [node.flat] }

/-- The first nodes of names that are not known, flat. -/
def firsts : List String → List Node → List Node
  | _, [] => []
  | known, node :: rest =>
    if node.typeName ∈ known then firsts known rest
    else node.flat :: firsts (known ++ [node.typeName]) rest

/-- The flat nodes of the schema, one for each name. -/
def core (S : Schema) : Schema := { S with types := firsts [] S.types }

/-- The definitions inside a node repeat names of the nodes before, unless its own name does. -/
def Repeats (before : List Node) (node : Node) : Prop :=
  node.typeName ∉ before.map Node.typeName →
    ∀ child ∈ node.children, child.children ≠ [] → child.typeName ∈ before.map Node.typeName

/-- Definitions inside the first node of a name repeat names of nodes listed before. -/
def Prelisted (S : Schema) : Prop :=
  ∀ before node after, S.types = before ++ node :: after → Repeats before node

/-- Definitions at any depth inside a node repeat names of nodes listed before. -/
def Repeating (S : Schema) : Prop :=
  ∀ before node after, S.types = before ++ node :: after →
    ∀ definition ∈ node.definitions, definition.typeName ∈ before.map Node.typeName

/-- Records have well-formed names and distinctly named children, whose types have regular names. -/
structure Regular (S : Schema) : Prop where
  wellFormed : ∀ node ∈ S.types, TypeName.WellFormed node.typeName
  distinct : ∀ node ∈ S.types, node.Distinct
  regular : ∀ node ∈ S.types, ∀ child ∈ node.children, TypeName.Regular child.typeName
  defined : ∀ node ∈ S.types, ∀ child ∈ node.children, child.children ≠ [] →
    TypeName.WellFormed child.typeName
  rooted : TypeName.Regular S.typeName

variable {S : Schema} {known before rest : List Node} {names : List String}

theorem Repeating.prelisted (h : S.Repeating) : S.Prelisted :=
  fun before node after split _ child mem inhabited =>
    h before node after split child.flat (Node.flat_mem_definitions mem inhabited)

theorem repeats_cons {node : Node} (own : Repeats before node)
    (later : ∀ front other back, rest = front ++ other :: back →
      Repeats (before ++ [node] ++ front) other) :
    ∀ front other back, node :: rest = front ++ other :: back → Repeats (before ++ front) other := by
  intro front other back split
  cases front with
  | nil =>
    obtain ⟨rfl, -⟩ := List.cons.inj split
    rwa [List.append_nil]
  | cons first front =>
    obtain ⟨rfl, tail⟩ := List.cons.inj split
    simpa using later front other back tail

theorem known_next_iff {node : Node} (again : node.typeName ∈ names)
    (same : ∀ name, name ∈ names ↔ name ∈ before.map Node.typeName) (name : String) :
    name ∈ names ↔ name ∈ (before ++ [node]).map Node.typeName := by
  rw [List.map_append, List.mem_append, same]
  constructor
  · exact .inl
  · rintro (old | last)
    · exact old
    · rw [List.mem_singleton.mp last]
      exact (same _).mp again

theorem new_next_iff (node : Node)
    (same : ∀ name, name ∈ names ↔ name ∈ before.map Node.typeName) (name : String) :
    name ∈ names ++ [node.typeName] ↔ name ∈ (before ++ [node]).map Node.typeName := by
  rw [List.map_append, List.mem_append, List.mem_append, same]
  rfl

theorem firsts_append {nodes : List Node} (known : ∀ node ∈ nodes, node.typeName ∈ names)
    (rest : List Node) : firsts names (nodes ++ rest) = firsts names rest := by
  induction nodes with
  | nil => rfl
  | cons node nodes ih =>
    obtain ⟨first, others⟩ := List.forall_mem_cons.mp known
    rw [List.cons_append, firsts, if_pos first, ih others]

/-- If all definitions repeat names, listing them before adds nothing. -/
theorem core_hoisted (h : S.Repeating) : S.hoisted.core = S.core := by
  have nodes : ∀ rest before names, S.types = before ++ rest →
      (∀ name, name ∈ names ↔ name ∈ before.map Node.typeName) →
      firsts names (rest.flatMap fun node => node.definitions ++ [node.flat]) =
        firsts names rest := by
    intro rest
    induction rest with
    | nil => exact fun _ _ _ _ => rfl
    | cons node rest ih =>
      intro before names split same
      have known : ∀ definition ∈ node.definitions, definition.typeName ∈ names :=
        fun definition mem => (same _).mpr (h before node rest split definition mem)
      have split' : S.types = (before ++ [node]) ++ rest := by rw [split, List.append_assoc]; rfl
      rw [List.flatMap_cons, List.append_assoc, firsts_append known, List.singleton_append, firsts,
        firsts, Node.typeName_flat]
      by_cases again : node.typeName ∈ names
      · rw [if_pos again, if_pos again]
        exact ih (before ++ [node]) names split' (known_next_iff again same)
      · rw [if_neg again, if_neg again, Node.flat_flat]
        congr 1
        exact ih (before ++ [node]) _ split' (new_next_iff node same)
  exact congrArg (fun types => { S with types := types }) (nodes S.types [] [] rfl (by simp))

theorem mem_firsts {node : Node} (mem : node ∈ firsts names rest) :
    node.typeName ∉ names ∧ ∃ own ∈ rest, node = own.flat := by
  induction rest generalizing names with
  | nil => cases mem
  | cons first rest ih =>
    rw [firsts] at mem
    split at mem
    · obtain ⟨new, own, hown, same⟩ := ih mem
      exact ⟨new, own, List.mem_cons_of_mem _ hown, same⟩
    · next unknown =>
      rcases List.mem_cons.mp mem with rfl | mem
      · exact ⟨unknown, first, List.mem_cons_self, rfl⟩
      · obtain ⟨new, own, hown, same⟩ := ih mem
        refine ⟨fun old => new (List.mem_append_left _ old), own, List.mem_cons_of_mem _ hown, same⟩

theorem nodup_firsts (names : List String) (rest : List Node) :
    ((firsts names rest).map Node.typeName).Nodup := by
  induction rest generalizing names with
  | nil => exact .nil
  | cons first rest ih =>
    rw [firsts]
    split
    · exact ih names
    · rw [List.map_cons, List.nodup_cons]
      refine ⟨fun again => ?_, ih _⟩
      obtain ⟨node, mem, same⟩ := List.mem_map.mp again
      exact (mem_firsts mem).1 (by rw [same]; simp [Node.typeName_flat])

theorem Regular.core_distinct (h : S.Regular) : S.core.Distinct where
  wellFormed := by
    intro node mem
    obtain ⟨-, own, hown, rfl⟩ := mem_firsts mem
    exact h.wellFormed own hown
  unique := nodup_firsts [] S.types

end Schema

end SchemaCodec
