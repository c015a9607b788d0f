import ApiProto.Yaml.ImplicitTag
import ApiProto.Yaml.Lexer

/-!
# Nodes of a text

* `Node` — a scalar, a sequence or a mapping, each with its tag.
* `Node.ofTokens?` — the node of a text with a single document. Aliases stand for the nodes that
  their anchors name.

Reading a node or the next item of a collection takes a token at least every other step, so the
number of steps is bounded by the number of tokens.
-/

namespace ApiProto.Yaml

/-- A node. -/
inductive Node where
  | scalar (tag text : String)
  | sequence (tag : String) (items : List Node)
  | mapping (tag : String) (entries : List (Node × Node))
deriving Inhabited, Repr

/-- The tag of a node. -/
def Node.tag : Node → String
  | .scalar tag _ | .sequence tag _ | .mapping tag _ => tag

/-- The state of reading nodes. -/
structure Composer where
  /-- The tokens that are left. -/
  tokens : List Token
  /-- The anchors so far, each with its node once that is complete. -/
  anchors : List (String × Option Node)
  /-- What handles of tags stand for. -/
  handles : List (String × String)

/-- A step of reading nodes. -/
abbrev ComposeM := StateT Composer Option

namespace ComposeM

/-- The next token, which is not taken. -/
def next? : ComposeM (Option Token) := do return (← get).tokens.head?

/-- Takes a token. -/
def take : ComposeM Unit := modify fun s => { s with tokens := s.tokens.drop 1 }

/-- Takes a token if it is the given one. -/
def took (t : Token) : ComposeM Bool := do
  if (← next?) = some t then
    take
    return true
  else return false

/-- Whether the next token is one of some tokens. -/
def nextIn (ts : List Token) : ComposeM Bool := do return (← next?).any ts.contains

/-- Whether there are no more tokens. -/
def atEnd : ComposeM Bool := do return (← next?).isNone

/-- Takes a token, which must be the given one. -/
def expect (t : Token) : ComposeM Unit := do
  if !(← took t) then failure

end ComposeM

open ComposeM

/-- Takes an anchor if there is one. -/
def takeAnchor : ComposeM (Option String) := do
  match ← next? with
  | some (.anchor name) =>
    take
    return some name
  | _ => return none

/-- Takes a tag if there is one, with its handle replaced by what it stands for. -/
def takeTag : ComposeM (Option String) := do
  match ← next? with
  | some (.tag handle suffix) =>
    take
    match handle with
    | none => return some suffix
    | some handle =>
      match (← get).handles.lookup handle with
      | some meaning => return some (meaning ++ suffix)
      | none => failure
  | _ => return none

/-- Takes an anchor and a tag in any order; both may be missing. -/
def takeProperties : ComposeM (Option String × Option String) := do
  match ← takeAnchor with
  | some anchor => return (some anchor, ← takeTag)
  | none =>
    let tag ← takeTag
    if tag.isSome then return (← takeAnchor, tag) else return (none, none)

/-- Notes an anchor, which must be new. -/
def openAnchor (anchor : Option String) : ComposeM Unit := do
  match anchor with
  | none => return
  | some name =>
    if ((← get).anchors.lookup name).isSome then failure
    modify fun s => { s with anchors := (name, none) :: s.anchors }

/-- Gives an anchor its node. -/
def closeAnchor (anchor : Option String) (node : Node) : ComposeM Node := do
  match anchor with
  | none => return node
  | some name =>
    modify fun s => { s with anchors := (name, some node) :: s.anchors }
    return node

/-- The tag of a collection: the given one unless it leaves the choice open. -/
def collectionTag (fallback : String) (tag : Option String) : String :=
  match tag with
  | none | some "!" => fallback
  | some tag => tag

/-- The tag of a scalar. A scalar without tag that is not plain is text, and the tag of one
exclamation mark asks for the tag that a plain scalar would have. -/
def scalarTag (plain : Bool) (tag : Option String) (text : String) : String :=
  match tag with
  | none => if plain then implicitTag text else Tag.str
  | some "!" => implicitTag text
  | some tag => tag

/-- A node without text. -/
def emptyNode : Node := .scalar (scalarTag true none "") ""

/-- Where a node stands: inside brackets, in a block, or in a block where a sequence may stand in
the column of the mapping around it. -/
inductive Setting where
  | flow
  | block
  | indentless
deriving DecidableEq, Inhabited, Repr

mutual

/-- Reads a node. -/
def composeNode : Nat → Setting → ComposeM Node
  | 0, _ => failure
  | n + 1, setting => do
    match ← next? with
    | some (.alias name) =>
      take
      match (← get).anchors.lookup name with
      | some (some node) => return node
      | _ => failure
    | _ =>
      let (anchor, tag) ← takeProperties
      openAnchor anchor
      let sequence := collectionTag Tag.seq tag
      let mapping := collectionTag Tag.map tag
      let node ← match ← next?, setting with
        | some .blockEntry, .indentless =>
          (composeIndentless n).map (Node.sequence sequence)
        | some (.scalar plain text), _ => do
          take
          pure (.scalar (scalarTag plain tag text) text)
        | some .flowSequenceStart, _ => do
          take
          (composeFlowItems n true).map (Node.sequence sequence)
        | some .flowMappingStart, _ => do
          take
          (composeFlowEntries n true).map (Node.mapping mapping)
        | some .blockSequenceStart, .block | some .blockSequenceStart, .indentless => do
          take
          (composeBlockItems n).map (Node.sequence sequence)
        | some .blockMappingStart, .block | some .blockMappingStart, .indentless => do
          take
          (composeBlockEntries n).map (Node.mapping mapping)
        | _, _ =>
          if anchor.isSome || tag.isSome then pure (.scalar (scalarTag true tag "") "")
          else failure
      closeAnchor anchor node

/-- Reads a node unless one of some tokens comes next, in which case the node is empty. -/
def composeUnless : Nat → List Token → Setting → ComposeM Node
  | 0, _, _ => failure
  | n + 1, ts, setting => do
    if ← nextIn ts then return emptyNode else composeNode n setting

/-- Reads the items of a block sequence. -/
def composeBlockItems : Nat → ComposeM (List Node)
  | 0 => failure
  | n + 1 => do
    if ← took .blockEntry then
      let item ← composeUnless n [.blockEntry, .blockEnd] .block
      return item :: (← composeBlockItems n)
    else
      expect .blockEnd
      return []

/-- Reads the items of a sequence in the column of the mapping around it. -/
def composeIndentless : Nat → ComposeM (List Node)
  | 0 => failure
  | n + 1 => do
    if ← took .blockEntry then
      let item ← composeUnless n [.blockEntry, .key, .value, .blockEnd] .block
      return item :: (← composeIndentless n)
    else return []

/-- Reads the value after a key; it is empty if there is none. -/
def composeValue : Nat → List Token → Setting → ComposeM Node
  | 0, _, _ => failure
  | n + 1, ts, setting => do
    if ← took .value then composeUnless n ts setting else return emptyNode

/-- Reads the entries of a block mapping. -/
def composeBlockEntries : Nat → ComposeM (List (Node × Node))
  | 0 => failure
  | n + 1 => do
    if ← took .key then
      let key ← composeUnless n [.key, .value, .blockEnd] .indentless
      let value ← composeValue n [.key, .value, .blockEnd] .indentless
      return (key, value) :: (← composeBlockEntries n)
    else
      expect .blockEnd
      return []

/-- Reads the items of a sequence in brackets. An item with a colon is a mapping of one entry. -/
def composeFlowItems : Nat → Bool → ComposeM (List Node)
  | 0, _ => failure
  | n + 1, first => do
    if ← took .flowSequenceEnd then return []
    if !first then expect .flowEntry
    if ← took .flowSequenceEnd then return []
    if ← took .key then
      let key ← composeUnless n [.value, .flowEntry, .flowSequenceEnd] .flow
      let value ← composeValue n [.flowEntry, .flowSequenceEnd] .flow
      let entry := Node.mapping Tag.map [(key, value)]
      return entry :: (← composeFlowItems n false)
    else
      let item ← composeNode n .flow
      return item :: (← composeFlowItems n false)

/-- Reads the entries of a mapping in braces. A node without colon is a key with an empty value. -/
def composeFlowEntries : Nat → Bool → ComposeM (List (Node × Node))
  | 0, _ => failure
  | n + 1, first => do
    if ← took .flowMappingEnd then return []
    if !first then expect .flowEntry
    if ← took .flowMappingEnd then return []
    if ← took .key then
      let key ← composeUnless n [.value, .flowEntry, .flowMappingEnd] .flow
      let value ← composeValue n [.flowEntry, .flowMappingEnd] .flow
      return (key, value) :: (← composeFlowEntries n false)
    else
      let key ← composeNode n .flow
      return (key, emptyNode) :: (← composeFlowEntries n false)

end

/-! ## Documents -/

/-- The handles that always have a meaning. -/
def defaultHandles : List (String × String) := [("!", "!"), ("!!", Tag.standard)]

/-- Takes marks of the ends of documents. -/
def skipDocumentEnds : ComposeM Unit :=
  modify fun s => { s with tokens := s.tokens.dropWhile (· == .documentEnd) }

/-- Takes directives. There may be one version, which must be one, and no handle may be given two
meanings. -/
def takeDirectives : Nat → Bool → List (String × String) → ComposeM Unit
  | 0, _, _ => failure
  | n + 1, versioned, handles => do
    match ← next? with
    | some (.directive d) =>
      take
      match d with
      | .version major => if versioned || major != 1 then failure else takeDirectives n true handles
      | .tag handle meaning =>
        if (handles.lookup handle).isSome then failure
        else takeDirectives n versioned ((handle, meaning) :: handles)
      | .other => takeDirectives n versioned handles
    | _ => modify fun s => { s with handles := handles ++ defaultHandles }

/-- Reads the only document of a text; `none` if there is no document. -/
def composeDocument (steps : Nat) : ComposeM (Option Node) := do
  match ← next? with
  | none => return none
  | some (.directive _) | some .documentStart => explicit
  | some _ =>
    let node ← composeNode steps .block
    finish node
where
  finish (node : Node) : ComposeM (Option Node) := do
    skipDocumentEnds
    if ← atEnd then return some node else failure
  explicit : ComposeM (Option Node) := do
    takeDirectives steps false []
    expect .documentStart
    match ← next? with
    | none | some (.directive _) | some .documentStart | some .documentEnd => finish emptyNode
    | some _ => finish (← composeNode steps .block)

/-- The node of a text with at most one document. -/
def Node.ofTokens? (tokens : List Token) : Option (Option Node) :=
  ((composeDocument (3 * tokens.length + 10)).run ⟨tokens, [], defaultHandles⟩).map (·.1)

end ApiProto.Yaml
