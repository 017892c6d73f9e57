import TypeInference.Types.Basic

/-! # Text of types

A composite type that is met again inside itself is written as three dots, so every type has a finite text.
-/

namespace TypeInference.TypeGraph

/-- The text of a type below the composite types of `active`. Every step into a composite type adds to `active`, so
the first argument need not exceed the size of the graph plus one. -/
def textAux (g : TypeGraph) : Nat → List NodeId → Ty → Except Fault String
  | _, _, .absent => .ok "<nil>"
  | _, _, .scalar s => .ok s.text
  | _, _, .error => .ok "<error type>"
  | _, _, .var id => .ok s!"${id}"
  | 0, _, .node _ => .error .outOfSteps
  | fuel + 1, active, .node i =>
    if active.contains i then .ok "..."
    else do
      let inner := textAux g fuel (i :: active)
      match ← g.get i with
      | .metatype t => return (← inner t) ++ ".metatype"
      | .function none _ => throw .missing
      | .function (some d) c => return (← inner (.node d)) ++ " -> " ++ (← inner c)
      | .tuple label fields =>
        let heading := if label = "" then "" else "#" ++ label
        if fields.isEmpty then
          return if label = "" then "()" else heading
        let parts ← fields.mapM fun f => do
          let t ← inner f.type
          return if f.label = "" then t else f.label ++ ": " ++ t
        return heading ++ "(" ++ ", ".intercalate parts ++ ")"
      | .union cases => return "( " ++ " or ".intercalate (← cases.mapM inner) ++ " )"

def text (g : TypeGraph) (t : Ty) : Except Fault String :=
  g.textAux (g.size + 1) [] t

/-- What a message shows for a type that has no text. -/
def unfinishedText : String :=
  "%!s(PANIC=String method: runtime error: invalid memory address or nil pointer dereference)"

/-- The text of a type inside a message. A message is always written: an absent type and a type that has no text,
because a function in it has no domain yet, have marks of their own there. -/
def textInMessage (g : TypeGraph) : Ty → String
  | .absent => "%!s(<nil>)"
  | t => (g.text t).toOption.getD unfinishedText

end TypeInference.TypeGraph
