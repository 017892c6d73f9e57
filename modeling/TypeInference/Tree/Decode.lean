import TypeInference.Document.Reader
import TypeInference.Diagnostic.Basic
import TypeInference.ModuleId
import TypeInference.Number.Literal
import TypeInference.SourceFile
import TypeInference.Tree.Basic

/-! # Modules from documents

A module is written as a mapping with a name, an identifier and a list of statements. A statement is a function, a type
alias or an expression; expressions and signatures are mappings with one key, which names what they are. Every node is
anchored at the node of the document that it comes from, and so is the problem of a document that is no module.
-/

namespace TypeInference

namespace Decode

open Document (Value)

abbrev Result := Except Diagnostic

def anchor (file : String) (n : Value) (lexeme : String) : Token :=
  { lexeme := lexeme, file := file, line := n.place.line, column := n.place.column }

def problem {α : Type} (file : String) (n : Value) (message : String) : Result α :=
  .error (.of .malformedModule (anchor file n n.text) message)

def fileProblem {α : Type} (file : String) (message : String) : Result α :=
  .error (.of .malformedModule { file := file } message)

/-! ### Parts of documents -/

abbrev Fields := List (String × Value)

/-- Checks entries against the keys that are known. -/
def checkFields (file what : String) (known : List String) : Fields → List (Value × Value) → Result Fields
  | found, [] => .ok found
  | found, (key, value) :: rest =>
    if !known.contains key.text then
      let expected := ", ".intercalate known
      problem file key s!"unknown field {Text.quote key.text} in {what} (expected one of {expected})"
    else if (found.lookup key.text).isSome then
      problem file key s!"duplicate field {Text.quote key.text} in {what}"
    else checkFields file what known (found ++ [(key.text, value)]) rest

def fields (file : String) (n : Value) (what : String) (known : List String) : Result Fields :=
  match n with
  | .mapping _ entries => checkFields file what known [] entries
  | n => problem file n s!"{what} must be a mapping"

def single (file : String) (n : Value) (what : String) : Result (Value × Value) :=
  match n with
  | .mapping _ [entry] => .ok entry
  | n => problem file n s!"{what} must be a mapping with exactly one key"

def scalar (file : String) (n : Option Value) (what : String) : Result String :=
  match n with
  | none => fileProblem file s!"missing {what}"
  | some (.scalar _ text _) => .ok text
  | some n => problem file n s!"{what} must be a scalar"

def optionalScalar (file : String) (n : Option Value) (what : String) : Result String :=
  match n with
  | none => .ok ""
  | some n => scalar file (some n) what

def items (file : String) (n : Option Value) (what : String) : Result (List Value) :=
  match n with
  | none => .ok []
  | some (.sequence _ items) => .ok items
  | some n => problem file n s!"{what} must be a sequence"

def required (file : String) (parent : Value) (fs : Fields) (key what : String) : Result Value :=
  match fs.lookup key with
  | some n => .ok n
  | none => problem file parent s!"{what} requires {Text.quote key}"

def value? (n : Value) (key : String) : Option Value :=
  match n with
  | .mapping _ entries => (entries.find? fun e => e.1.text == key).map Prod.snd
  | _ => none

/-! ### Signatures -/

/-- An element of a signature: a label and a type, or a type alone. -/
def signElem (sign : Value → Result Sign) (file : String) (n : Value) : Result SignElem := do
  if (value? n "type").isSome then
    let fs ← fields file n "element" ["label", "type"]
    let label ← optionalScalar file (fs.lookup "label") "element label"
    let type ← required file n fs "type" "element"
    return { token := anchor file n label, label := label, name := "", sign := ← sign type }
  return { token := anchor file n "", label := "", name := "", sign := ← sign n }

def tupleSign (sign : Value → Result Sign) (file : String) (n : Value) : Result TupleSign := do
  let fs ← fields file n "tuple signature" ["label", "elements"]
  let label ← optionalScalar file (fs.lookup "label") "tuple label"
  let elems ← items file (fs.lookup "elements") "elements"
  return { token := anchor file n ("#" ++ label), label := label
           elems := (← elems.mapM (signElem sign file)).map some }

def unitSign (file : String) (n : Value) : Sign := .tuple { token := anchor file n "()", label := "", elems := [] }

def funcSign (file : String) (n : Value) (elems : List SignElem) (codomain : Sign) : FuncSign :=
  { token := anchor file n "->"
    domain := some { token := anchor file n "(", label := "", elems := elems.map some }
    codomain := codomain }

/-- A signature: a scalar names a type, and a mapping is a tuple, a union or a function. The first argument bounds its
nesting. -/
def signAux (file : String) : Nat → Value → Result Sign
  | 0, n => problem file n "signature must be a mapping with exactly one key"
  | fuel + 1, n =>
    match n with
    | .scalar _ text _ => .ok (.name { token := anchor file n text, name := text })
    | n => do
      let (key, body) ← single file n "signature"
      match key.text with
      | "tuple" => return .tuple (← tupleSign (signAux file fuel) file body)
      | "union" =>
        let cases ← items file (some body) "union cases"
        return .union (anchor file n "or") (← cases.mapM (signAux file fuel))
      | "func" =>
        let fs ← fields file body "function signature" ["params", "returns"]
        let params ← items file (fs.lookup "params") "params"
        let elems ← params.mapM (signElem (signAux file fuel) file)
        let codomain ← match fs.lookup "returns" with
          | some r => signAux file fuel r
          | none => pure (unitSign file body)
        return .func (funcSign file n elems codomain)
      | kind => problem file key s!"unknown signature {Text.quote kind}"

def sign (file : String) (n : Value) : Result Sign := signAux file n.size n

def param (file : String) (n : Value) : Result SignElem := do
  let fs ← fields file n "parameter" ["name", "label", "type"]
  let name ← optionalScalar file (fs.lookup "name") "parameter name"
  let label ← optionalScalar file (fs.lookup "label") "parameter label"
  let type ← required file n fs "type" "parameter"
  return { token := anchor file n name, label := label, name := name, sign := ← sign file type }

/-! ### Expressions -/

def function (expr : Value → Result Expr) (file : String) (n : Value) (name : String) (fs : Fields) : Result Func := do
  let params ← items file (fs.lookup "params") "params"
  let elems ← params.mapM (param file)
  let codomain ← match fs.lookup "returns" with
    | some r => sign file r
    | none => pure (unitSign file n)
  let body ← required file n fs "body" "function"
  return { mark := { token := anchor file n name }, name := name, sign := some (funcSign file n elems codomain)
           body := ← expr body }

def operand (expr : Value → Result Expr) (file : String) (parent : Value) (fs : Fields) (key : String) :
    Result Expr := do
  expr (← required file parent fs key "expression")

/-- An argument or element: a label and a value, or a value alone. -/
def labelled (expr : Value → Result Expr) (file what : String) (n : Value) : Result Labelled := do
  if (value? n "value").isSome then
    let fs ← fields file n what ["label", "value"]
    let label ← optionalScalar file (fs.lookup "label") (what ++ " label")
    let value ← required file n fs "value" what
    return { mark := { token := anchor file n label }, label := label, value := ← expr value }
  return { mark := { token := anchor file n "" }, label := "", value := ← expr n }

def matchCase (expr : Value → Result Expr) (file : String) (n : Value) : Result MatchCase := do
  let fs ← fields file n "match case" ["pattern", "value"]
  let pattern ← operand expr file n fs "pattern"
  let value ← operand expr file n fs "value"
  return { token := anchor file n "with", pattern := pattern, value := value }

/-- The member that a selection asks for, by label or by number. -/
def member (file : String) (body : Value) (fs : Fields) : Result Member :=
  match fs.lookup "label", fs.lookup "index" with
  | some _, some _ => problem file body "select takes either a label or an index"
  | some label, none => .ok (.ofLabel label.text)
  | none, some index =>
    match Literal.int? index.text with
    | some i =>
      if i < 0 then problem file index s!"invalid index {Text.quote index.text}" else .ok (.index i)
    | none => problem file index s!"invalid index {Text.quote index.text}"
  | none, none => problem file body "select requires a label or an index"

def literal (file : String) (n body : Value) (what : String) (value : Option Constant) : Result Expr :=
  match value with
  | some v => .ok (.literal { token := anchor file n body.text } v)
  | none => problem file body s!"invalid {what} literal {Text.quote body.text}"

def operator (file : String) (fs : Fields) : Result Ident := do
  let name ← scalar file (fs.lookup "op") "operator"
  match fs.lookup "op" with
  | some n => return { mark := { token := anchor file n name }, name := name }
  | none => fileProblem file "missing operator"

/-- An expression. The first argument bounds its nesting. -/
def exprAux (file : String) : Nat → Value → Result Expr
  | 0, n => problem file n "expression must be a mapping with exactly one key"
  | fuel + 1, n => do
    let (key, body) ← single file n "expression"
    let expr := exprAux file fuel
    let mark (lexeme : String) : Mark := { token := anchor file n lexeme }
    match key.text with
    | "int" => literal file n body "int" ((Literal.int? body.text).map .int)
    | "float" => literal file n body "float" ((Literal.float? body.text).map .float)
    | "bool" => literal file n body "bool" ((Literal.bool? body.text).map .bool)
    | "string" => return .literal (mark (Text.quote body.text)) (.string body.text)
    | "ident" =>
      let name ← scalar file (some body) "identifier"
      return .ident { mark := mark name, name := name }
    | "let" =>
      let name ← scalar file (some body) "let binding"
      return .letBinding { mark := mark name, name := name }
    | "call" =>
      let fs ← fields file body "call" ["callee", "args"]
      let callee ← operand expr file body fs "callee"
      let args ← items file (fs.lookup "args") "args"
      let lexeme := (callee.mark?.map fun m => m.token.lexeme).getD ""
      return .call (mark lexeme) callee ((← args.mapM (labelled expr file "argument")).map some)
    | "binary" =>
      let fs ← fields file body "binary expression" ["op", "left", "right"]
      let op ← operator file fs
      let left ← operand expr file body fs "left"
      let right ← operand expr file body fs "right"
      return .binary (mark op.name) op left right
    | "unary" =>
      let fs ← fields file body "unary expression" ["op", "operand"]
      let op ← operator file fs
      return .unary (mark op.name) op (← operand expr file body fs "operand")
    | "if" =>
      let fs ← fields file body "if expression" ["cond", "then", "else"]
      let condition ← operand expr file body fs "cond"
      let thenBranch ← operand expr file body fs "then"
      let elseBranch ← operand expr file body fs "else"
      return .cond (mark "if") noScope noScope condition thenBranch elseBranch
    | "match" =>
      let fs ← fields file body "match expression" ["subject", "cases"]
      let subject ← operand expr file body fs "subject"
      let cases ← items file (fs.lookup "cases") "cases"
      return .matching (mark "match") subject ((← cases.mapM (matchCase expr file)).map some)
    | "tuple" =>
      let fs ← fields file body "tuple" ["label", "elements"]
      let label ← optionalScalar file (fs.lookup "label") "tuple label"
      let elems ← items file (fs.lookup "elements") "elements"
      return .tuple (mark ("#" ++ label)) label ((← elems.mapM (labelled expr file "element")).map some)
    | "select" =>
      let fs ← fields file body "select expression" ["owner", "label", "index"]
      let owner ← operand expr file body fs "owner"
      let m ← member file body fs
      return .select (mark ("." ++ m.text)) owner m
    | "func" =>
      let fs ← fields file body "function" ["name", "params", "returns", "body"]
      let name ← optionalScalar file (fs.lookup "name") "function name"
      return .func (← function expr file body name fs)
    | kind => problem file key s!"unknown expression {Text.quote kind}"

def expr (file : String) (n : Value) : Result Expr := exprAux file n.size n

/-! ### Modules -/

def typeAlias (file : String) (n : Value) : Result TypeAlias := do
  let fs ← fields file n "type alias" ["type", "is"]
  let name ← scalar file (fs.lookup "type") "type name"
  let definition ← required file n fs "is" "type alias"
  let sign ← sign file definition
  let token := match fs.lookup "type" with
    | some t => anchor file t name
    | none => anchor file n name
  return { token := token, name := name, sign := sign }

def statement (file : String) (n : Value) : Result Node := do
  if (value? n "type").isSome then return .alias (← typeAlias file n)
  match value? n "func" with
  | some (.scalar _ name _) =>
    let fs ← fields file n "function" ["func", "params", "returns", "body"]
    return .expr (.func (← function (expr file) file n name fs))
  | _ => return .expr (← expr file n)

/-- The identifier of a module, empty if there is none. -/
def moduleId (file : String) (n : Option Value) : Result String :=
  match n with
  | none => .ok ""
  | some n =>
    match ModuleId.read n.text with
    | .ok id => .ok id
    | .error p => problem file n s!"module id: {p.message}"

/-- A module. Its name is that of its file unless the document has another one. -/
def module (file : String) (n : Value) : Result Module := do
  let fs ← fields file n "module document" ["module", "id", "statements"]
  let token ← match fs.lookup "module" with
    | some nameNode => do pure (anchor file nameNode (← scalar file (some nameNode) "module name"))
    | none => pure (anchor file n (SourceFile.moduleName file))
  let id ← moduleId file (fs.lookup "id")
  let statements ← items file (fs.lookup "statements") "statements"
  return { token := token, name := token.lexeme, id := id, statements := ← statements.mapM (statement file) }

def ofText (file text : String) : Result Module :=
  match Document.read text with
  | .malformed => fileProblem file "yaml: malformed document"
  | .empty => fileProblem file "empty document"
  | .document root => module file root

end Decode

end TypeInference
