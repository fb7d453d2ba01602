import Mathlib.Data.List.Basic
import SchemaCodec.Proofs.Json.RoundTrip
import SchemaCodec.Schema.Document

/-! # Schemas as documents

A schema is found back in its document, in either layout, when the arrays and objects of the
document nest no deeper than they may, and in no other case.
-/

namespace SchemaCodec

namespace Json

mutual

/-- How deep arrays and objects nest in a value. -/
def nesting : Json → Nat
  | array items => nestingItems items + 1
  | object members => nestingMembers members + 1
  | _ => 0

def nestingItems : List Json → Nat
  | [] => 0
  | item :: items => max (nesting item) (nestingItems items)

def nestingMembers : List (List Piece × Json) → Nat
  | [] => 0
  | (_, value) :: members => max (nesting value) (nestingMembers members)

end

theorem nestingItems_le {items : List Json} {depth : Nat} (h : ∀ v ∈ items, nesting v ≤ depth) :
    nestingItems items ≤ depth := by
  induction items with
  | nil => exact Nat.zero_le depth
  | cons item items ih =>
    exact Nat.max_le.mpr ⟨h _ List.mem_cons_self, ih fun v hv => h v (List.mem_cons_of_mem _ hv)⟩

@[simp]
theorem text?_pieces (s : String) : text? (pieces s) = some s := by
  rw [text?, pieces, characters?_map_char]
  exact congrArg some (String.ofList_toList)

theorem asInt64?_ofInt (n : Int64) : asInt64? (ofInt n.toInt) = some n := by
  have low := n.minValue_le_toInt
  have high := n.toInt_lt
  rw [ofInt, asInt64?, int?_toString, Option.filter_some, if_pos]
  · exact congrArg some n.ofInt_toInt
  · exact decide_eq_true ⟨low, high⟩

end Json

open Json

variable {name : Option String} {typeName : String} {children nodes : List Node} {node : Node}
  {S : Schema} {layout : Layout} {depth : Nat}

/-! ## Nodes -/

namespace Node

theorem toJsons_eq_map (nodes : List Node) : toJsons nodes = nodes.map toJson := by
  induction nodes with
  | nil => rfl
  | cons node nodes ih => rw [toJsons, ih, List.map_cons]

theorem toJson_mk : toJson (mk name typeName children) = .object
    (name.toList.map (fun n => (pieces "name", ofString n)) ++
      (pieces "type_name", ofString typeName) ::
        if children = [] then [] else [(pieces "children", .array (children.map toJson))]) := by
  cases name <;> cases children <;> simp [toJson, toJsons, toJsons_eq_map]

theorem plain_toJson (node : Node) : Plain node.toJson := by
  induction node with
  | mk name typeName children ih =>
    rw [toJson_mk]
    have parts : ∀ m ∈ name.toList.map (fun n => (pieces "name", ofString n)) ++
        (pieces "type_name", ofString typeName) ::
          if children = [] then [] else [(pieces "children", .array (children.map toJson))],
        (∃ s, m.1 = pieces s) ∧ Plain m.2 := by
      intro m hm
      rcases List.mem_append.mp hm with hm | hm
      · obtain ⟨n, -, rfl⟩ := List.mem_map.mp hm
        exact ⟨⟨_, rfl⟩, .text n⟩
      rcases List.mem_cons.mp hm with rfl | hm
      · exact ⟨⟨_, rfl⟩, .text typeName⟩
      split at hm
      · cases hm
      · obtain rfl := List.mem_singleton.mp hm
        refine ⟨⟨_, rfl⟩, .array fun v hv => ?_⟩
        obtain ⟨c, hc, rfl⟩ := List.mem_map.mp hv
        exact ih c hc
    exact .object (fun m hm => (parts m hm).1) (fun m hm => (parts m hm).2)

theorem nodesOf_toJsons (back : ∀ n ∈ nodes, ∀ depth,
      node? n.toJson depth = if n.toJson.nesting ≤ depth then some n else none) (depth : Nat) :
    nodesOf (nodes.map toJson) depth =
      if nestingItems (nodes.map toJson) ≤ depth then some nodes else none := by
  induction nodes with
  | nil =>
    rw [List.map_nil, nodesOf, nestingItems, if_pos depth.zero_le]
  | cons node nodes ih =>
    rw [List.map_cons, nodesOf, nestingItems, back _ List.mem_cons_self,
      ih fun n hn => back n (List.mem_cons_of_mem _ hn)]
    by_cases head : node.toJson.nesting ≤ depth
    · by_cases tail : nestingItems (nodes.map toJson) ≤ depth
      · rw [if_pos head, if_pos tail, if_pos (Nat.max_le.mpr ⟨head, tail⟩)]
        rfl
      · rw [if_pos head, if_neg tail, if_neg fun both => tail (Nat.max_le.mp both).2]
        rfl
    · rw [if_neg head, if_neg fun both => head (Nat.max_le.mp both).1]

theorem takeAll_names (depth : Nat) (members : List (List Piece × Json)) :
    takeAll (NodeDraft.take depth) .empty (memberReadings
      (name.toList.map (fun n => (pieces "name", ofString n)) ++
        (pieces "type_name", ofString typeName) :: members)) =
      takeAll (NodeDraft.take depth) ⟨name.map some, some typeName, none⟩
        (memberReadings members) := by
  cases name <;>
    simp [memberReadings, takeAll, NodeDraft.take, NodeDraft.empty, fill, asText?, asName?,
      ofString]

theorem takeAll_children (n : Option (Option String)) (t : Option String) (v : Json) :
    takeAll (NodeDraft.take depth) ⟨n, t, none⟩ (memberReadings [(pieces "children", v)]) =
      (nodes? v depth).map fun cs => ⟨n, t, some cs⟩ := by
  cases read : nodes? v depth <;> simp [memberReadings, takeAll, NodeDraft.take, fill, read]

theorem nesting_toJson (node : Node) : node.toJson.nesting =
    if node.children = [] then 1 else nestingItems (node.children.map toJson) + 2 := by
  obtain ⟨name, typeName, children⟩ := node
  rw [toJson_mk, Node.children]
  split <;> cases name <;> simp [nesting, nestingMembers, ofString]

theorem finish_names : NodeDraft.finish ⟨name.map some, some typeName, some children⟩ =
    some (mk name typeName children) := by
  cases name <;> rfl

theorem node?_toJson (node : Node) (depth : Nat) :
    node? node.toJson depth = if node.toJson.nesting ≤ depth then some node else none := by
  induction node generalizing depth with
  | mk name typeName children ih =>
    rw [toJson_mk]
    cases depth with
    | zero =>
      rw [nesting, if_neg (Nat.not_succ_le_zero _)]
      rfl
    | succ depth =>
      rw [node?, takeAll_names, ← toJson_mk, nesting_toJson, Node.children]
      split
      · next none =>
        subst none
        cases name <;> rfl
      · rw [takeAll_children]
        cases depth with
        | zero =>
          rw [if_neg (by omega)]
          rfl
        | succ depth =>
          rw [nodes?, nodesOf_toJsons ih]
          simp only [Nat.add_le_add_iff_right]
          split
          · exact finish_names
          · rfl

end Node

/-! ## Schemas -/

namespace Schema

theorem plain_toJson (S : Schema) : Plain S.toJson := by
  rw [toJson, Node.toJsons_eq_map]
  refine .object (fun m hm => ?_) fun m hm => ?_
  · simp only [List.mem_cons, List.not_mem_nil, or_false] at hm
    rcases hm with rfl | rfl | rfl <;> exact ⟨_, rfl⟩
  · simp only [List.mem_cons, List.not_mem_nil, or_false] at hm
    rcases hm with rfl | rfl | rfl
    · exact .text S.typeName
    · exact .integer S.fingerprint.toInt
    · refine .array fun v hv => ?_
      obtain ⟨node, -, rfl⟩ := List.mem_map.mp hv
      exact node.plain_toJson

theorem takeAll_parts (depth : Nat) (t : String) (n : Int64) (v : Json) :
    takeAll (SchemaDraft.take depth) .empty (memberReadings [(pieces "type_name", ofString t),
      (pieces "fingerprint", ofInt n.toInt), (pieces "types", v)]) =
      (nodes? v depth).map fun types => ⟨some t, some n, some types⟩ := by
  have text : asText? (ofString t) = some t := text?_pieces t
  cases read : nodes? v depth <;>
    simp [memberReadings, takeAll, SchemaDraft.take, SchemaDraft.empty, fill, read,
      text, asInt64?_ofInt]

theorem nesting_toJson (S : Schema) :
    S.toJson.nesting = nestingItems (S.types.map Node.toJson) + 2 := by
  simp [toJson, Node.toJsons_eq_map, nesting, nestingMembers, ofString, ofInt]

theorem schema?_toJson (S : Schema) (depth : Nat) :
    schema? depth S.toJson = if S.toJson.nesting ≤ depth then some S else none := by
  rw [nesting_toJson, toJson, Node.toJsons_eq_map]
  cases depth with
  | zero =>
    rw [if_neg (by omega)]
    rfl
  | succ depth =>
    rw [schema?, takeAll_parts]
    cases depth with
    | zero =>
      rw [if_neg (by omega)]
      rfl
    | succ depth =>
      rw [nodes?, Node.nodesOf_toJsons fun node _ => node.node?_toJson]
      simp only [Nat.add_le_add_iff_right]
      split <;> rfl

/-- A schema is read from its document exactly if that nests no deeper than allowed. -/
theorem ofDocument_document (spaced : layout.Spaced) (S : Schema) :
    ofDocument (S.document layout) =
      if S.toJson.nesting ≤ documentDepth then .ok S
      else .error (.malformed .schemaDocument) := by
  rw [ofDocument, document, parse?_render spaced S.plain_toJson, Option.bind_some, schema?_toJson]
  by_cases shallow : S.toJson.nesting ≤ documentDepth
  · rw [if_pos shallow, if_pos shallow]
  · rw [if_neg shallow, if_neg shallow]

theorem nesting_toJson_le (references : ∀ node ∈ S.types, ∀ c ∈ node.children, c.children = []) :
    S.toJson.nesting ≤ 5 := by
  rw [nesting_toJson, Nat.add_le_add_iff_right]
  refine nestingItems_le fun v hv => ?_
  obtain ⟨node, hnode, rfl⟩ := List.mem_map.mp hv
  rw [Node.nesting_toJson]
  split
  · exact Nat.le_succ_of_le (Nat.le_succ 1)
  · rw [Nat.add_le_add_iff_right]
    refine nestingItems_le fun v hv => ?_
    obtain ⟨c, hc, rfl⟩ := List.mem_map.mp hv
    rw [Node.nesting_toJson]
    exact Nat.le_of_eq (if_pos (references node hnode c hc))

end Schema

end SchemaCodec
