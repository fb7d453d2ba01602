import SchemaCodec.Schema.Discovery
import SchemaCodec.Schema.Fingerprint
import SchemaCodec.Schema.Ordering

/-! # Extraction

The schema of a type: its records are discovered, each becomes a node with its members in the
order of their names, and the nodes are put in dependency order.
-/

namespace SchemaCodec

/-- A schema with the records it was made from, in the order of discovery. -/
structure Extraction where
  schema : Schema
  records : List Descriptor

namespace Extraction

variable (C : Catalog)

/-- The members of a record as references in the order of their names. -/
def children (record : Descriptor) : List Node :=
  let members := (record.members? C).getD []
  (Fields.ofList (members.map fun (name, d) => (name, d.name))).map fun (name, typeName) =>
    Node.member name typeName

def needs (record : Descriptor) : List String :=
  ((record.members? C).getD []).filterMap fun (_, d) =>
    if d.innermost.isRecord then some d.innermost.name else none

def entry (record : Descriptor) : Ordering.Entry :=
  ⟨.mk none record.name (children C record), needs C record⟩

def ofDescriptor (root : Descriptor) : Except Error Extraction := do
  let records ← Discovery.records C root
  let entries ← Ordering.order (records.map (entry C))
  return ⟨⟨root.name, Fingerprint.ofString root.shortName, entries.map (·.node)⟩, records⟩

end Extraction

end SchemaCodec
