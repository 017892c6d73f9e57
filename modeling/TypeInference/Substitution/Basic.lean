import TypeInference.Types.Printer

/-! # Substitutions

A table from inference variables to what is known about them. A bound type may mention variables again; `lookup` follows
chains of variables, and `Substitution.Reify` resolves a type all the way down.
-/

namespace TypeInference

/-- Finitely many bindings of variables, by increasing variable. -/
structure Substitution where
  entries : List (Int × Ty) := []
deriving DecidableEq, Repr, Inhabited

namespace Substitution

def empty : Substitution := {}

def size (s : Substitution) : Nat := s.entries.length

def vars (s : Substitution) : List Int := s.entries.map Prod.fst

def get? (s : Substitution) (v : Int) : Option Ty := s.entries.lookup v

/-- Puts an entry in its place, over the one of the same variable. -/
def insertEntry (v : Int) (t : Ty) : List (Int × Ty) → List (Int × Ty)
  | [] => [(v, t)]
  | (w, u) :: rest =>
    if v < w then (v, t) :: (w, u) :: rest
    else if v = w then (v, t) :: rest
    else (w, u) :: insertEntry v t rest

/-- Binds a variable. Binding it to itself changes nothing. -/
def bind (s : Substitution) (v : Int) (t : Ty) : Substitution :=
  if t = .var v then s else ⟨insertEntry v t s.entries⟩

/-- Follows at most `steps` bindings from a type. -/
def lookupAux (s : Substitution) : Nat → Ty → Ty
  | steps + 1, .var v =>
    match s.get? v with
    | some t => lookupAux s steps t
    | none => .var v
  | _, t => t

/-- The end of the chain of variables that starts with a type: a type that is no bound variable. In a chain that runs in
a circle it is some variable of the circle. -/
def lookup (s : Substitution) (t : Ty) : Ty :=
  s.lookupAux (s.size + 1) t

def lookupVar? (s : Substitution) (t : Ty) : Option Int :=
  match s.lookup t with
  | .var v => some v
  | _ => none

def text (g : TypeGraph) (s : Substitution) : String :=
  let parts := s.entries.map fun (v, t) => s!"${v} -> {g.textInMessage t}"
  "\x7b" ++ ", ".intercalate parts ++ "\x7d"

end Substitution

end TypeInference
