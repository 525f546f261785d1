/-!
# Function keys

A function is known by its name and the number of its parameters.  Functions that share a name but
take different numbers of arguments have nothing to do with each other.
-/

namespace ImplicitCurves

/-- The name and number of parameters of a function. -/
structure FunctionKey where
  name : Char
  arity : Nat
deriving DecidableEq, Repr

namespace FunctionKey

/-- Keys are ordered by name, then by number of parameters. -/
instance : Ord FunctionKey :=
  ⟨compareLex (compareOn FunctionKey.name) (compareOn FunctionKey.arity)⟩

instance : Std.TransOrd FunctionKey :=
  inferInstanceAs
    (Std.TransCmp (compareLex (compareOn FunctionKey.name) (compareOn FunctionKey.arity)))

instance : Std.LawfulEqOrd FunctionKey where
  eq_of_compare {k k'} h := by
    obtain ⟨hname, harity⟩ := compareLex_eq_eq.1 h
    cases k
    cases k'
    cases Std.LawfulEqOrd.eq_of_compare hname
    cases Std.LawfulEqOrd.eq_of_compare harity
    rfl

/-- The text of a key, such as `f(2)`. -/
def text (k : FunctionKey) : String :=
  String.singleton k.name ++ "(" ++ toString k.arity ++ ")"

end FunctionKey

end ImplicitCurves
