import ApiProto.Yaml.Node
import ApiProto.Yaml.ScalarValue

/-!
# Reading YAML

* `Data` — what a text is read to.
* `sameKey` — whether two keys of a mapping count as one.
* `Node.data` — the data of a node.
* `Yaml.read?` — the data of a text with at most one document.

The entries of a merged mapping come before the entries of the mapping itself. Of entries with the
same key the first gives the key and the last the value. Of several faults the least deeply nested
one counts, and of these the first.
-/

namespace ApiProto.Yaml

/-- What a text is read to. The keys of a mapping are scalars, of any kind. -/
inductive Data where
  | plain (value : Value)
  | list (items : List Data)
  | mapping (entries : List (Value × Data))
deriving Inhabited, Repr

/-! ## Keys -/

/-- Whether two keys count as one. Truth values count as the numbers one and zero, and numbers are
compared by value. -/
def sameKey : Value → Value → Bool
  | .null, .null => true
  | .text a, .text b => a == b
  | .bytes a, .bytes b => a == b
  | .date a, .date b => a == b
  | .timestamp a, .timestamp b => a.sameTime b
  | a, b =>
    match number? a, number? b with
    | some x, some y => x == y
    | _, _ => false
where
  /-- The number that a key counts as, which is an integer where possible. -/
  number? : Value → Option (Int ⊕ Binary64)
    | .bool b => some (.inl b.toInt)
    | .int n => some (.inl n)
    | .float x => some (match x.toInt? with
      | some n => .inl n
      | none => .inr x)
    | _ => none

/-- Puts an entry to entries with different keys. -/
def insertKeyed (key : Value) (data : Data) : List (Value × Data) → List (Value × Data)
  | [] => [(key, data)]
  | (k, d) :: rest =>
    if sameKey k key then (k, data) :: rest else (k, d) :: insertKeyed key data rest

/-- The mapping with the given entries. -/
def mappingOf (entries : List (Value × Data)) : Data :=
  .mapping (entries.foldl (fun done (key, data) => insertKeyed key data done) [])

/-! ## Faults -/

/-- A fault and how deeply it is nested. -/
structure NestedFault where
  depth : Nat
  fault : Fault
deriving DecidableEq, Inhabited, Repr

/-- Two results together. Of two faults the less deeply nested one counts, the first if both are
equally deep. -/
def both {α β : Type} (a : Except NestedFault α) (b : Except NestedFault β) :
    Except NestedFault (α × β) :=
  match a, b with
  | .ok x, .ok y => .ok (x, y)
  | .error e, .ok _ => .error e
  | .ok _, .error f => .error f
  | .error e, .error f => .error (if f.depth < e.depth then f else e)

/-- A fault of a given depth. -/
def faultAt {α : Type} (depth : Nat) (fault : Fault) : Except NestedFault α := .error ⟨depth, fault⟩

/-! ## Values -/

mutual

/-- The text of a node where a scalar is asked for. A mapping stands for the value of the entry
whose key is an equals sign. -/
def scalarText? : Node → Option String
  | .scalar _ text => some text
  | .sequence .. => none
  | .mapping _ entries => defaultText? entries

/-- The text of the first entry whose key is an equals sign. -/
def defaultText? : List (Node × Node) → Option String
  | [] => none
  | (key, value) :: rest => if key.tag = Tag.value then scalarText? value else defaultText? rest

end

/-- Tags of collections. -/
def collectionTags : List String := [Tag.seq, Tag.map, Tag.set, Tag.omap, Tag.pairs]

/-- The value of a node whose tag is not that of a collection. -/
def plainValue (depth : Nat) : Node → Except NestedFault Value
  | .scalar tag text => (scalarValue tag text).mapError (⟨depth, ·⟩)
  | .sequence .. => faultAt depth .malformed
  | .mapping tag entries =>
    match defaultText? entries with
    | some text => (scalarValue tag text).mapError (⟨depth, ·⟩)
    | none => faultAt depth .malformed

/-- The value of a key, which must not be a collection. -/
def keyValue (depth : Nat) (node : Node) : Except NestedFault Value :=
  if collectionTags.contains node.tag then faultAt depth .malformed
  else match node with
    | .scalar tag text =>
      if tag = Tag.value then .ok (.text text) else plainValue depth (.scalar tag text)
    | node => plainValue depth node

mutual

/-- The data of a node at a given depth. -/
def dataAt (depth : Nat) : Node → Except NestedFault Data
  | .scalar tag text =>
    if collectionTags.contains tag then faultAt (depth + 1) .malformed
    else (plainValue depth (.scalar tag text)).map .plain
  | .sequence tag items =>
    if tag = Tag.seq then (itemsData (depth + 1) items).map .list
    else if tag = Tag.omap ∨ tag = Tag.pairs then (pairsData (depth + 1) items).map .list
    else faultAt (if tag = Tag.map ∨ tag = Tag.set then depth + 1 else depth) .malformed
  | .mapping tag entries =>
    if tag = Tag.map then (entriesData (depth + 1) entries).map mappingOf
    else if tag = Tag.set then
      (entriesData (depth + 1) entries).map fun es => .plain (.list (es.map (·.1)))
    else if collectionTags.contains tag then faultAt (depth + 1) .malformed
    else (plainValue depth (.mapping tag entries)).map .plain

/-- The data of the items of a sequence. -/
def itemsData (depth : Nat) : List Node → Except NestedFault (List Data)
  | [] => .ok []
  | item :: rest => (both (dataAt depth item) (itemsData depth rest)).map fun (d, ds) => d :: ds

/-- The data of mappings of one entry, each as a list of key and value. -/
def pairsData (depth : Nat) : List Node → Except NestedFault (List Data)
  | [] => .ok []
  | .mapping _ [(key, value)] :: rest =>
    (both (both (dataAt depth key) (dataAt depth value)) (pairsData depth rest)).map
      fun ((k, d), ds) => .list [k, d] :: ds
  | _ :: _ => faultAt depth .malformed

/-- The entries of a mapping, those of merged mappings first. -/
def entriesData (depth : Nat) (entries : List (Node × Node)) :
    Except NestedFault (List (Value × Data)) :=
  (both (mergedData depth entries) (ownData depth entries)).map fun (ms, es) => ms ++ es

/-- The entries that are merged into a mapping. -/
def mergedData (depth : Nat) : List (Node × Node) → Except NestedFault (List (Value × Data))
  | [] => .ok []
  | (key, value) :: rest =>
    if key.tag = Tag.merge then
      (both (mergedFrom depth value) (mergedData depth rest)).map fun (ms, es) => ms ++ es
    else mergedData depth rest

/-- The entries that a node merges into a mapping. Those of the first mapping of a sequence come
last. -/
def mergedFrom (depth : Nat) : Node → Except NestedFault (List (Value × Data))
  | .mapping _ entries => entriesData depth entries
  | .sequence _ items => mergedItems depth items
  | .scalar .. => faultAt depth .malformed

/-- The entries of the mappings of a sequence, those of the last one first. -/
def mergedItems (depth : Nat) : List Node → Except NestedFault (List (Value × Data))
  | [] => .ok []
  | .mapping _ entries :: rest =>
    (both (mergedItems depth rest) (entriesData depth entries)).map fun (ms, es) => ms ++ es
  | _ :: _ => faultAt depth .malformed

/-- The entries of a mapping itself. An equals sign is a key like others here. -/
def ownData (depth : Nat) : List (Node × Node) → Except NestedFault (List (Value × Data))
  | [] => .ok []
  | (key, value) :: rest =>
    if key.tag = Tag.merge then ownData depth rest
    else
      (both (both (keyValue depth key) (dataAt depth value)) (ownData depth rest)).map
        fun (e, es) => e :: es

end

/-- The data of a node. -/
def Node.data (node : Node) : Except Fault Data := (dataAt 0 node).mapError (·.fault)

/-- The data of a text; null if there is no document. -/
def read? (text : String) : Except Fault Data := do
  let ts ← tokens text
  match Node.ofTokens? ts with
  | none => throw .malformed
  | some none => return .plain .null
  | some (some node) => node.data

end ApiProto.Yaml
