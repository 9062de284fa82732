import LetPoly.Typing.Env

/-!
# The prelude

The names that every program starts with.  The schemes of the prelude take the first
variables of the supply, and `fst` and `snd` share theirs.
-/

namespace LetPoly.Prelude

/-- The type of functions of two arguments of one type. -/
def binary (t u : Ty) : Ty := .fn t (.fn t u)

/-- The number of variables that the prelude draws. -/
def drawn : Supply := 5

/-- The names of the prelude and their schemes. -/
def entries : List (String × Scheme) :=
  let arithmetic := ["+", "-", "*", "/"].map (·, Scheme.mono (binary .int .int))
  let order := ["<", "<=", ">", ">="].map (·, Scheme.mono (binary .int .bool))
  let equality := [("==", 0), ("!=", 1)].map fun (x, v) =>
    (x, (⟨[v], binary (.var v) .bool⟩ : Scheme))
  let logic := ["&&", "||"].map (·, Scheme.mono (binary .bool .bool))
  let pair := Ty.tuple [.var 2, .var 3]
  arithmetic ++ order ++ equality ++ logic ++
    [("not", .mono (.fn .bool .bool)),
     ("neg", .mono (.fn .int .int)),
     ("++", .mono (binary .string .string)),
     ("to_float", .mono (.fn .int .float)),
     ("fst", ⟨[2, 3], .fn pair (.var 2)⟩),
     ("snd", ⟨[2, 3], .fn pair (.var 3)⟩),
     ("id", ⟨[4], .fn (.var 4) (.var 4)⟩)]

/-- The environment that every program starts in. -/
def env : Env := entries.foldl (fun env e => env.extend e.1 e.2) .empty

end LetPoly.Prelude
