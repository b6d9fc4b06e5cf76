import DocWalk.Expr.Rewriter

/-!
# Folding constant comparisons

A comparison of two literals is replaced by its truth value, from the leaves
up, so a truth value found below takes part in the comparison above it.
-/

namespace DocWalk

/-- A comparison whose operands are folded already, and whether it was replaced. -/
def Expr.foldComparison (l : Expr) (op : Comparator) (r : Expr) : Expr × Nat :=
  match l, r with
  | .literal a, .literal b =>
      match op.decide? a b with
      | some b => (truth b, 1)
      | none => (compare l op r, 0)
  | _, _ => (compare l op r, 0)

/-- Folds expressions and counts the comparisons that it replaces. -/
structure Folder where
  folded : Nat := 0
deriving DecidableEq, Repr

namespace Folder

def onNode : Expr → Folder → Expr × Folder
  | .compare l op r, f =>
      let (e, n) := Expr.foldComparison l op r
      (e, { f with folded := f.folded + n })
  | e, f => (e, f)

def rewriter : Rewriter Folder :=
  { onNode := onNode }

/-- Fold an expression, counting from zero. -/
def run (f : Folder) (e : Expr) : (Expr × Nat) × Folder :=
  let (e, f) := e.rewrite rewriter { f with folded := 0 }
  ((e, f.folded), f)

end Folder

namespace Expr

/-- The folded expression and the number of comparisons that were replaced. -/
def foldCounting (e : Expr) : Expr × Nat :=
  (({} : Folder).run e).1

/-- The expression with its constant comparisons folded. -/
def fold (e : Expr) : Expr :=
  e.foldCounting.1

end Expr

end DocWalk
