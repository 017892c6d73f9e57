import TypeInference.Document.Reader
import TypeInference.Number.Duration
import TypeInference.Number.Literal
import TypeInference.Text.Quoted

/-! # Settings

How modules are analysed and how problems are shown. Settings are read from a document with a section for the solver and
one for the output; what it does not mention has its default, and keys that are not known are ignored.
-/

namespace TypeInference

inductive ColorMode where
  | auto
  | always
  | never
deriving DecidableEq, Repr, Inhabited

namespace ColorMode

def text : ColorMode → String
  | .auto => "auto"
  | .always => "always"
  | .never => "never"

def ofText? (s : String) : Option ColorMode := [auto, always, never].find? fun m => m.text == s

end ColorMode

structure Settings where
  /-- The time that a solve may take, in nanoseconds; zero means any. -/
  timeout : Int := 0
  /-- Whether choices may be tried at the same time. This never changes a result. -/
  parallel : Bool := false
  maxParallel : Int := 4
  trace : Bool := false
  color : ColorMode := .auto
deriving DecidableEq, Repr, Inhabited

namespace Settings

inductive Problem where
  | malformed
  | negativeTimeout
  | negativeParallel
  | color (text : String)
deriving DecidableEq, Repr

def Problem.message (path : String) : Problem → String
  | .malformed => s!"parsing {path}: yaml: malformed document"
  | .negativeTimeout => s!"{path}: solver.timeout must not be negative"
  | .negativeParallel => s!"{path}: solver.max_parallel must not be negative"
  | .color text => s!"{path}: output.color {Text.quote text} is not one of auto, always, never"

/-! ### Typed scalars -/

inductive Meaning where
  | null
  | bool (value : Bool)
  | int (value : Int)
  | float (bits : UInt64)
  | string (text : String)
deriving DecidableEq, Repr

/-- The digits of a base, as a number; there has to be one. -/
def based? (base : Nat) (cs : List Char) : Option Nat :=
  if cs.isEmpty then none
  else cs.foldlM (fun n c => do
    let d ← Document.hexValue? c
    if d < base then some (n * base + d) else none) 0

/-- A number without a sign, in a base that its start tells. -/
def natural? : List Char → Option Nat
  | '0' :: mark :: rest =>
    if mark = 'x' || mark = 'X' then based? 16 rest
    else if mark = 'b' || mark = 'B' then based? 2 rest
    else if mark = 'o' || mark = 'O' then based? 8 rest
    else based? 8 (mark :: rest)
  | cs => based? 10 cs

/-- An integer that has 64 bits, with or without a sign; `magnitude` reads what is after the sign. -/
def signed? (magnitude : List Char → Option Nat) (cs : List Char) : Option Int := do
  let (negative, digits) := Literal.sign cs
  let n ← magnitude digits
  if negative then if n ≤ Nat.pow 2 63 then some (-(n : Int)) else none
  else if n < Nat.pow 2 63 then some n
  else if n < Nat.pow 2 64 && cs.head? != some '+' then some n else none

/-- An integer whose sign may also stand between the mark of a base and the digits. -/
def integer? (cs : List Char) : Option Int :=
  match signed? natural? cs, cs with
  | some n, _ => some n
  | none, '0' :: 'b' :: rest => signed? (based? 2) rest
  | none, '0' :: 'o' :: rest => signed? (based? 8) rest
  | none, _ => none

/-- Whether all characters are digits; `least` of them have to be there. -/
def areDigits (least : Nat) (cs : List Char) : Bool := least ≤ cs.length && cs.all Char.isDigit

/-- Whether a text is a decimal number with an optional point and exponent. -/
def isDecimal (cs : List Char) : Bool :=
  let body := (Literal.sign cs).2
  let mantissa := body.takeWhile fun c => c != 'e' && c != 'E'
  let exponent := body.drop mantissa.length
  let before := mantissa.takeWhile (· != '.')
  let after := mantissa.drop (before.length + 1)
  let pointed := mantissa.length > before.length
  let mantissaOk := if before.isEmpty then pointed && areDigits 1 after else areDigits 1 before && areDigits 0 after
  mantissaOk && (exponent.isEmpty || areDigits 1 (Literal.sign (exponent.drop 1)).2)

def plainMeaning (text : String) : Meaning :=
  if ["", "~", "null", "Null", "NULL"].contains text then .null
  else if ["true", "True", "TRUE"].contains text then .bool true
  else if ["false", "False", "FALSE"].contains text then .bool false
  else if [".nan", ".NaN", ".NAN"].contains text then .float Binary64.nan
  else if [".inf", ".Inf", ".INF", "+.inf", "+.Inf", "+.INF"].contains text then .float (Binary64.infinity false)
  else if ["-.inf", "-.Inf", "-.INF"].contains text then .float (Binary64.infinity true)
  else
    match text.toList with
    | [] => .null
    | first :: rest =>
      let plain := (first :: rest).filter (· != '_')
      if first = '.' then
        match Literal.float? text with
        | some bits => .float bits
        | none => .string text
      else if first.isDigit || first = '+' || first = '-' then
        match integer? plain with
        | some n => .int n
        | none =>
          if isDecimal plain then
            match Literal.float? (String.ofList plain) with
            | some bits => .float bits
            | none => .string text
          else .string text
      else .string text

def Meaning.tag : Meaning → String
  | .null => "!!null"
  | .bool _ => "!!bool"
  | .int _ => "!!int"
  | .float _ => "!!float"
  | .string _ => "!!str"

/-- What an integer stands for where a floating point number is asked for. -/
def Meaning.toFloat : Meaning → Option Meaning
  | .int n => (Binary64.nearest? n.natAbs 1).map fun x => .float (x.bits (n < 0))
  | .float bits => some (.float bits)
  | _ => none

/-- The meaning of a scalar. Between quotes it is a text, and a tag has to agree with what the text means by itself. The
text `<<` means nothing but as a key. -/
def meaning? (text : String) : Document.Style → Option Meaning
  | .quoted => some (.string text)
  | .plain => if text = "<<" then none else some (plainMeaning text)
  | .tagged tag =>
    let m := plainMeaning text
    if tag = "!!str" then some (.string text)
    else if tag = m.tag then some m
    else if tag = "!!float" then m.toFloat
    else none

/-! ### Typed fields

A field reads a node and gives its value, or the value that it has by default if the node stands for nothing. -/

/-- A field of settings: nothing if the node has the wrong type. -/
abbrev Field (α : Type) := Document.Value → α → Option α

def scalarField {α : Type} (read : String → Meaning → Option α) : Field α
  | .scalar _ text style, old =>
    match meaning? text style with
    | some .null => some old
    | some m => read text m
    | none => none
  | _, _ => none

/-- A duration is a text. -/
def duration : Field Int := scalarField fun _ m =>
  match m with
  | .string s => Duration.read s
  | _ => none

def truth : Field Bool := scalarField fun _ m =>
  match m with
  | .bool b => some b
  | .string s =>
    if ["y", "Y", "yes", "Yes", "YES", "on", "On", "ON"].contains s then some true
    else if ["n", "N", "no", "No", "NO", "off", "Off", "OFF"].contains s then some false
    else none
  | _ => none

/-- A number whose fraction is cut off; nothing if it is too large. -/
def truncate (bits : UInt64) : Option Int :=
  match Binary64.classify bits with
  | .nan => none
  | .infinite negative => if negative then some (-(Nat.pow 2 63 : Int)) else none
  | .finite negative x =>
    let magnitude := if x.exponent ≥ 0 then x.mantissa * Nat.pow 2 x.exponent.toNat else x.mantissa / Nat.pow 2
      (-x.exponent).toNat
    if negative then some (if magnitude ≤ Nat.pow 2 63 then -(magnitude : Int) else -(Nat.pow 2 63 : Int))
    else if magnitude < Nat.pow 2 63 then some magnitude
    else if magnitude = Nat.pow 2 63 then some (-(Nat.pow 2 63 : Int)) else none

def count : Field Int := scalarField fun _ m =>
  match m with
  | .int n => if n < (Nat.pow 2 63 : Int) then some n else none
  | .float bits => truncate bits
  | _ => none

def word : Field String := scalarField fun text _ => some text

/-- Whether a scalar stands for nothing. -/
def isNull : Document.Value → Bool
  | .scalar _ text style => meaning? text style = some .null
  | _ => false

abbrev Fields := List (String × Document.Value)

def Fields.under (outer inner : Fields) : Fields :=
  outer ++ inner.filter fun f => !outer.any fun o => o.1 == f.1

/-- Whether a key asks for the fields of other mappings. -/
def isMerge : Document.Value → Bool
  | .scalar _ text style => text == "<<" && (style == .plain || style == .tagged "!!merge")
  | _ => false

def isKey : Document.Value → Bool
  | .scalar place text style => isMerge (.scalar place text style) || (meaning? text style).isSome
  | _ => false

def keysOk (entries : List (Document.Value × Document.Value)) : Bool :=
  let keys := entries.map fun e => e.1.text
  entries.all (fun e => isKey e.1) && keys.eraseDups.length = keys.length

/-- The fields of a mapping, and those of the mappings that it asks for below them; of two such mappings the first comes
first. The first argument bounds the nesting. -/
def mappingFields? : Nat → Document.Value → Option Fields
  | fuel + 1, .mapping _ entries => do
    if !keysOk entries then none
    let own := entries.filter fun e => !isMerge e.1 && !isNull e.1
    let asked ← (entries.filter fun e => isMerge e.1).mapM fun e =>
      match e.2 with
      | .sequence _ items => items.mapM (mappingFields? fuel)
      | v => (mappingFields? fuel v).map ([·])
    return asked.flatten.foldl Fields.under (own.map fun e => (e.1.text, e.2))
  | _, _ => none

/-- The fields of a section; a scalar that stands for nothing has none. -/
def fields? (v : Document.Value) : Option Fields :=
  if isNull v then some [] else mappingFields? v.size v

/-! ### Settings from documents -/

/-- Settings as they are written; an empty color is the default. -/
structure Draft where
  timeout : Int := 0
  parallel : Bool := false
  maxParallel : Int := 0
  trace : Bool := false
  color : String := ""

def solverEntry (d : Draft) (e : String × Document.Value) : Option Draft :=
  match e.1 with
  | "timeout" => (duration e.2 d.timeout).map fun t => { d with timeout := t }
  | "parallel_disjunctions" => (truth e.2 d.parallel).map fun b => { d with parallel := b }
  | "max_parallel" => (count e.2 d.maxParallel).map fun n => { d with maxParallel := n }
  | "trace" => (truth e.2 d.trace).map fun b => { d with trace := b }
  | _ => some d

def outputEntry (d : Draft) (e : String × Document.Value) : Option Draft :=
  match e.1 with
  | "color" => (word e.2 d.color).map fun s => { d with color := s }
  | _ => some d

def sectionEntry (d : Draft) (e : String × Document.Value) : Option Draft := do
  match e.1 with
  | "solver" => (← fields? e.2).foldlM solverEntry d
  | "output" => (← fields? e.2).foldlM outputEntry d
  | _ => return d

def draft? (root : Document.Value) : Option Draft := do (← fields? root).foldlM sectionEntry {}

def ofDraft (d : Draft) : Except Problem Settings :=
  if d.timeout < 0 then .error .negativeTimeout
  else if d.maxParallel < 0 then .error .negativeParallel
  else
    match if d.color = "" then some .auto else ColorMode.ofText? d.color with
    | none => .error (.color d.color)
    | some color =>
      .ok { timeout := d.timeout, parallel := d.parallel, trace := d.trace, color := color
            maxParallel := if d.maxParallel = 0 then 4 else d.maxParallel }

def ofText (text : String) : Except Problem Settings :=
  match Document.readResolved text with
  | .malformed => .error .malformed
  | .empty => ofDraft {}
  | .document root =>
    match draft? root with
    | some d => ofDraft d
    | none => .error .malformed

end Settings

end TypeInference
