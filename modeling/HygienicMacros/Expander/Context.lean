import HygienicMacros.Expander.State

/-! # Tag contexts

The part of an expander that counts tags, by itself: it needs a frozen registry and a depth limit,
and it allocates and skips tags.
-/

namespace HygienicMacros

/-- One use of a tag supply. -/
inductive TagStep where
  | fresh
  | skip (n : Int)
  deriving DecidableEq, Repr

/-- The supply after a step. -/
def TagSupply.step (s : TagSupply) : TagStep → TagSupply
  | .fresh => s.fresh.2
  | .skip n => s.skipPast n

/-- The last tag after each of some steps. -/
def TagSupply.trace (s : TagSupply) : List TagStep → List Nat
  | [] => []
  | step :: rest => (s.step step).last :: (s.step step).trace rest

/-- The depth limit of a context over a registry. -/
def contextLimit (r : Registry) (maxDepth : Value) : Except Error Nat :=
  if r.frozen then Expander.depthLimit maxDepth else .error .contextNotFrozen

end HygienicMacros
