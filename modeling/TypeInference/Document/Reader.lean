import TypeInference.Document.Token

/-! # Reading documents

Builds the value of a document from its tokens. Readers take tokens off a feed, and fail on a malformed document. The
first argument of every reader that repeats itself bounds its steps; the number of tokens is always enough.

Only the first document of a text counts, and what follows its value is not looked at.
-/

namespace TypeInference.Document

/-- The tokens that are left, and the values that have a name. A value that is still being read has none yet. -/
structure Feed where
  tokens : List Token
  names : List (String × Option Value) := []
  /-- Whether references are replaced by what they stand for. -/
  resolve : Bool

abbrev Reader := StateT Feed Option

namespace Reader

def peek : Reader Token := do
  match (← get).tokens with
  | t :: _ => return t
  | [] => failure

def skip : Reader Unit := modify fun f => { f with tokens := f.tokens.tail }

def define (name : Option String) (v : Option Value) : Reader Unit :=
  match name with
  | some name => modify fun f => { f with names := (name, v) :: f.names }
  | none => pure ()

/-- The value of a reference: what it stands for, or the reference itself. -/
def followed (place : Place) (name : String) : Reader Value := do
  match (← get).names.lookup name with
  | none => failure
  | some v => if (← get).resolve then StateT.lift v else return .reference place name

/-! ### Blocks -/

/-- Reads a value unless one of some tokens is next, which stands for a value that is not there. -/
def orEmpty (ends : List Token.Kind) (missing : Place) (node : Reader Value) : Reader Value := do
  if ends.contains (← peek).kind then return .empty missing else node

def blockItems (node : Reader Value) : Nat → Reader (List Value)
  | 0 => failure
  | fuel + 1 => do
    let t ← peek
    skip
    match t.kind with
    | .blockEntry =>
      let item ← orEmpty [.blockEntry, .blockEnd] t.place.next node
      return item :: (← blockItems node fuel)
    | .blockEnd => return []
    | _ => failure

def alignedItems (node : Reader Value) : Nat → Reader (List Value)
  | 0 => failure
  | fuel + 1 => do
    let t ← peek
    if t.kind ≠ .blockEntry then return []
    skip
    let item ← orEmpty [.blockEntry, .key, .value, .blockEnd] t.place.next node
    return item :: (← alignedItems node fuel)

def blockValue (node : Reader Value) : Reader Value := do
  let t ← peek
  if t.kind ≠ .value then return .empty t.place
  skip
  orEmpty [.key, .value, .blockEnd] t.place.next node

def blockEntries (node : Reader Value) : Nat → Reader (List (Value × Value))
  | 0 => failure
  | fuel + 1 => do
    let t ← peek
    skip
    match t.kind with
    | .key =>
      let key ← orEmpty [.key, .value, .blockEnd] t.place.next node
      let v ← blockValue node
      return (key, v) :: (← blockEntries node fuel)
    | .blockEnd => return []
    | _ => failure

/-! ### Brackets -/

/-- Skips the comma before an entry that is not the first. -/
def separator (first : Bool) : Reader Unit := do
  if first then return
  if (← peek).kind ≠ .flowEntry then failure
  skip

/-- A mapping of one entry among the items of a flow sequence, from the token after that of its key on. -/
def pair (node : Reader Value) (place : Place) : Reader Value := do
  let t ← peek
  let key ← if [.value, .flowEntry, .flowSequenceEnd].contains t.kind then do
      skip
      pure (.empty t.place.next)
    else node
  let t ← peek
  let v ← if t.kind = .value then do
      skip
      orEmpty [.flowEntry, .flowSequenceEnd] t.place node
    else pure (.empty t.place)
  return .mapping place [(key, v)]

def flowItems (node : Reader Value) : Nat → Bool → Reader (List Value)
  | 0, _ => failure
  | fuel + 1, first => do
    if (← peek).kind = .flowSequenceEnd then
      skip
      return []
    separator first
    let t ← peek
    match t.kind with
    | .flowSequenceEnd =>
      skip
      return []
    | .key =>
      skip
      let item ← pair node t.place
      return item :: (← flowItems node fuel false)
    | _ =>
      let item ← node
      return item :: (← flowItems node fuel false)

/-- The value after a key of a flow mapping. A missing one stands where the entry ends. -/
def flowValue (node : Reader Value) : Reader Value := do
  if (← peek).kind = .value then skip
  else return .empty (← peek).place
  orEmpty [.flowEntry, .flowMappingEnd] (← peek).place node

def flowEntries (node : Reader Value) : Nat → Bool → Reader (List (Value × Value))
  | 0, _ => failure
  | fuel + 1, first => do
    if (← peek).kind = .flowMappingEnd then
      skip
      return []
    separator first
    match (← peek).kind with
    | .flowMappingEnd =>
      skip
      return []
    | .key =>
      skip
      let key ← orEmpty [.value, .flowEntry, .flowMappingEnd] (← peek).place node
      let v ← flowValue node
      return (key, v) :: (← flowEntries node fuel false)
    | _ =>
      let key ← node
      let v := .empty (← peek).place
      return (key, v) :: (← flowEntries node fuel false)

/-! ### Values -/

/-- What stands before a value: a name and a tag, in any order. -/
structure Properties where
  place : Place
  name : Option String := none
  tag : Option String := none

def properties : Reader Properties := do
  let t ← peek
  match t.kind with
  | .anchor name =>
    skip
    match (← peek).kind with
    | .tag tag =>
      skip
      return { place := t.place, name := name, tag := tag }
    | _ => return { place := t.place, name := name }
  | .tag tag =>
    skip
    match (← peek).kind with
    | .anchor name =>
      skip
      return { place := t.place, name := name, tag := tag }
    | _ => return { place := t.place, tag := tag }
  | _ => return { place := t.place }

/-- The style of a scalar; the tag `!` tells nothing. -/
def Properties.style (p : Properties) (quoted : Bool) : Style :=
  match p.tag with
  | some tag => if tag = "!" then if quoted then .quoted else .plain else .tagged tag
  | none => if quoted then .quoted else .plain

/-- A value that has a name while it is read, but can be referred to only afterwards. -/
def named (p : Properties) (read : Reader Value) : Reader Value := do
  define p.name none
  let v ← read
  define p.name (some v)
  return v

/-- A value. Outside of brackets it may be a block, and after a key also a sequence in the column of the key. The first
argument bounds the length of collections, and the second the nesting. -/
def node (steps : Nat) : Nat → Bool → Bool → Reader Value
  | 0, _, _ => failure
  | fuel + 1, block, aligned => do
    let t ← peek
    if let .reference name := t.kind then
      skip
      return ← followed t.place name
    let p ← properties
    let t ← peek
    match t.kind with
    | .scalar text quoted =>
      skip
      named p (pure (.scalar p.place text (p.style quoted)))
    | .flowSequence =>
      skip
      named p (do return .sequence p.place (← flowItems (node steps fuel false false) steps true))
    | .flowMapping =>
      skip
      named p (do return .mapping p.place (← flowEntries (node steps fuel false false) steps true))
    | .blockEntry =>
      if aligned then named p (do return .sequence p.place (← alignedItems (node steps fuel true false) steps))
      else bare p
    | .blockSequence =>
      if block then
        skip
        named p (do return .sequence p.place (← blockItems (node steps fuel true false) steps))
      else bare p
    | .blockMapping =>
      if block then
        skip
        named p (do return .mapping p.place (← blockEntries (node steps fuel true true) steps))
      else bare p
    | _ => bare p
where
  /-- Properties without a value stand for an empty scalar. -/
  bare (p : Properties) : Reader Value :=
    if p.name.isSome || p.tag.isSome then named p (pure (.scalar p.place "" (p.style false))) else failure

def document : Reader (Option Value) := do
  let steps := (← get).tokens.length + 1
  let t ← peek
  match t.kind with
  | .streamEnd => return none
  | .directive | .documentStart =>
    if t.kind = .directive then skip
    if (← peek).kind ≠ .documentStart then failure
    skip
    let v ← orEmpty [.directive, .documentStart, .documentEnd, .streamEnd] (← peek).place (node steps steps true false)
    discard peek
    return v
  | _ =>
    let v ← node steps steps true false
    discard peek
    return v

end Reader

inductive Contents where
  /-- Nothing but blanks and comments. -/
  | empty
  | document (root : Value)
  | malformed
deriving Inhabited

/-- Whether a text may hold a character; controls have to be escaped. -/
def isAllowed (c : Char) : Bool :=
  c == '\t' || c == '\n' || c == '\r' || (0x20 ≤ c.toNat && c.toNat ≤ 0x7e) || c.toNat == 0x85
    || (0xa0 ≤ c.toNat && c.toNat ≤ 0xfffd) || 0x10000 ≤ c.toNat

/-- The characters of a text without the mark of its encoding. -/
def withoutMark : List Char → List Char
  | '\ufeff' :: rest => rest
  | cs => cs

/-- Reads a text; references are replaced by what they stand for if `resolve` holds. -/
def readWith (resolve : Bool) (text : String) : Contents :=
  let cs := withoutMark text.toList
  if !cs.all isAllowed then .malformed
  else
    match Reader.document.run { tokens := Token.ofChars cs, resolve := resolve } with
    | some (some root, _) => .document root
    | some (none, _) => .empty
    | none => .malformed

/-- Reads a text, and leaves references as they are. -/
def read (text : String) : Contents := readWith false text

def readResolved (text : String) : Contents := readWith true text

end TypeInference.Document
