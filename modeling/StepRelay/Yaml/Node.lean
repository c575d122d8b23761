import StepRelay.Yaml.Token

/-!
# Nodes

The tree of a document, built from its tokens.
-/

namespace StepRelay.Yaml

inductive Node where
  | scalar (scalar : Scalar)
  | sequence (items : List Node)
  | mapping (entries : List (Node × Node))

/-- What stands where nothing is written. -/
def Node.empty : Node := .scalar ⟨true, ""⟩

/-- Where a node is looked for. -/
inductive Context where
  | block
  /-- A key or value in a block mapping, where dashes at the column of the mapping are a
  sequence. -/
  | entry
  | flow
  deriving DecidableEq

/-- Whether the next token is one of the given ones. -/
def atOneOf (ends : List Token) (tokens : List Token) : Bool := tokens.head?.any ends.contains

mutual

/-- Reads a node. -/
def readNode (context : Context) : (fuel : Nat) → List Token → Option (Node × List Token)
  | 0, _ | _ + 1, [] => none
  | fuel + 1, token :: tokens =>
    match token, context with
    | .scalar scalar, _ => some (.scalar scalar, tokens)
    | .flowSequence, _ => do
      if atOneOf [.flowSequenceEnd] tokens then return (.sequence [], tokens.drop 1)
      let (items, rest) ← readFlowItems fuel tokens
      return (.sequence items, rest)
    | .flowMapping, _ => do
      if atOneOf [.flowMappingEnd] tokens then return (.mapping [], tokens.drop 1)
      let (entries, rest) ← readFlowEntries fuel tokens
      return (.mapping entries, rest)
    | .blockSequence, .block | .blockSequence, .entry => do
      let (items, rest) ← readItems [.item, .blockEnd] fuel tokens
      if rest.head? = some .blockEnd then return (.sequence items, rest.drop 1) else none
    | .blockMapping, .block | .blockMapping, .entry => do
      let (entries, rest) ← readEntries fuel tokens
      return (.mapping entries, rest)
    | .item, .entry => do
      let (items, rest) ← readItems [.item, .key, .value, .blockEnd] fuel (token :: tokens)
      return (.sequence items, rest)
    | _, _ => none

/-- Reads a node, unless one of the given tokens comes first: then the node is empty. -/
def readNodeOrEmpty (context : Context) (ends : List Token) :
    (fuel : Nat) → List Token → Option (Node × List Token)
  | 0, _ => none
  | fuel + 1, tokens =>
    if atOneOf ends tokens then some (.empty, tokens) else readNode context fuel tokens

/-- Reads the items of a block sequence, each behind a dash. -/
def readItems (ends : List Token) : (fuel : Nat) → List Token → Option (List Node × List Token)
  | 0, _ => none
  | fuel + 1, .item :: tokens => do
    let (item, rest) ← readNodeOrEmpty .block ends fuel tokens
    let (items, rest) ← readItems ends fuel rest
    return (item :: items, rest)
  | _ + 1, tokens => some ([], tokens)

/-- Reads the entries of a block mapping and its end. -/
def readEntries : (fuel : Nat) → List Token → Option (List (Node × Node) × List Token)
  | fuel + 1, .key :: tokens => do
    let (key, rest) ← readNodeOrEmpty .entry [.key, .value, .blockEnd] fuel tokens
    let (value, rest) ← readValue .entry [.key, .value, .blockEnd] fuel rest
    let (entries, rest) ← readEntries fuel rest
    return ((key, value) :: entries, rest)
  | _ + 1, .blockEnd :: tokens => some ([], tokens)
  | _, _ => none

/-- Reads a value behind its colon; without a colon it is empty. -/
def readValue (context : Context) (ends : List Token) :
    (fuel : Nat) → List Token → Option (Node × List Token)
  | fuel + 1, .value :: tokens => readNodeOrEmpty context ends fuel tokens
  | _, tokens => some (.empty, tokens)

/-- Reads the items of a flow sequence and its end. An item may be a single entry of a mapping; if
that has no key, the token at the key's place is lost. -/
def readFlowItems : (fuel : Nat) → List Token → Option (List Node × List Token)
  | 0, _ => none
  | fuel + 1, tokens => do
    let (item, rest) ← match tokens with
      | .key :: tokens => do
        let (key, rest) ←
          if atOneOf [.value, .separator, .flowSequenceEnd] tokens then
            pure (Node.empty, tokens.drop 1)
          else readNode .flow fuel tokens
        let (value, rest) ← readValue .flow [.separator, .flowSequenceEnd] fuel rest
        pure (Node.mapping [(key, value)], rest)
      | tokens => readNode .flow fuel tokens
    match rest with
    | .flowSequenceEnd :: rest | .separator :: .flowSequenceEnd :: rest => return ([item], rest)
    | .separator :: rest => do
      let (items, rest) ← readFlowItems fuel rest
      return (item :: items, rest)
    | _ => none

/-- Reads the entries of a flow mapping and its end. An entry may be a key alone. -/
def readFlowEntries : (fuel : Nat) → List Token → Option (List (Node × Node) × List Token)
  | 0, _ => none
  | fuel + 1, tokens => do
    let ends : List Token := [.separator, .flowMappingEnd]
    let (entry, rest) ← match tokens with
      | .key :: tokens => do
        let (key, rest) ← readNodeOrEmpty .flow (.value :: ends) fuel tokens
        let (value, rest) ← readValue .flow ends fuel rest
        pure ((key, value), rest)
      | tokens => do
        let (key, rest) ← readNode .flow fuel tokens
        pure ((key, Node.empty), rest)
    match rest with
    | .flowMappingEnd :: rest | .separator :: .flowMappingEnd :: rest => return ([entry], rest)
    | .separator :: rest => do
      let (entries, rest) ← readFlowEntries fuel rest
      return (entry :: entries, rest)
    | _ => none

end

/-- The node of the only document in a list of tokens, or nothing if there is no document. -/
def document? (tokens : List Token) : Option (Option Node) := do
  if tokens = [] then return none
  let fuel := 3 * tokens.length + 1
  let (node, rest) ← match tokens with
    | [.documentStart] => some (.empty, [])
    | .documentStart :: rest => readNodeOrEmpty .block [.documentStart, .documentEnd] fuel rest
    | tokens => readNode .block fuel tokens
  if rest.all (· == .documentEnd) then return some node else none

/-- Reads a text that holds one document or none. -/
def parse? (text : List Char) : Option (Option Node) := do document? (← tokens? text)

end StepRelay.Yaml
