import TypeInference.Types.Basic

/-! # Equality of types

Structural equality of possibly recursive types. Tuples compare by label and field sequence, unions as sets of
cases, variables by number. A pair of composite types that is met again while it is being compared counts as equal,
which is how two cyclic types can be found equal at all.
-/

namespace TypeInference.TypeGraph

/-- Every case of `xs` has an equal case in `ys`. -/
def covers (equal : Ty → Ty → Except Fault Bool) (xs ys : List Ty) : Except Fault Bool :=
  xs.allM fun x => ys.anyM (equal x)

/-- Equality of two types when the pairs of `assumed` are under comparison. Every step into a pair of composite types
adds to `assumed`, so the first argument need not exceed the number of pairs of nodes plus one. -/
def equalAux (g : TypeGraph) : Nat → List (NodeId × NodeId) → Ty → Ty → Except Fault Bool
  | 0, _, _, _ => .error .outOfSteps
  | fuel + 1, assumed, .node i, .node j =>
    if i = j then .ok true
    else do
      let inner := equalAux g fuel ((i, j) :: assumed)
      match ← g.get i, ← g.get j with
      | .metatype t, .metatype u =>
        if assumed.contains (i, j) then return true
        inner t u
      | .function d c, .function d' c' =>
        if assumed.contains (i, j) then return true
        let domains ← match d, d' with
          | none, none => pure true
          | some d, some d' => inner (.node d) (.node d')
          | _, _ => throw .missing
        if domains then inner c c' else return false
      | .tuple l fs, .tuple l' fs' =>
        if !sameShape l fs l' fs' then return false
        if assumed.contains (i, j) then return true
        (fs.zip fs').allM fun (f, f') => inner f.type f'.type
      | .union cs, .union cs' =>
        if assumed.contains (i, j) then return true
        if ← covers inner cs cs' then covers inner cs' cs else return false
      | _, _ => return false
  | _ + 1, _, t, u => .ok (t == u)

def equal (g : TypeGraph) (t u : Ty) : Except Fault Bool :=
  g.equalAux (g.size * g.size + 1) [] t u

def anyEqual (g : TypeGraph) (ts : List Ty) (t : Ty) : Except Fault Bool :=
  ts.anyM fun u => g.equal u t

end TypeInference.TypeGraph
