import DocWalk.Expr.Basic

/-!
# Rewriting walks

A walk goes through an expression from left to right and from the leaves up.
It may replace every column that it meets, and every expression once the parts
of that expression are done, and it carries a state along.
-/

namespace DocWalk

/-- What a walk does to a column, and to an expression whose parts are done. Unless it says
otherwise, it leaves both as they are. -/
structure Rewriter (σ : Type) where
  onColumn : Column → σ → Column × σ := fun c s => (c, s)
  onNode : Expr → σ → Expr × σ := fun e s => (e, s)

namespace Expr

mutual

/-- Walk over an expression. -/
def rewrite {σ : Type} (w : Rewriter σ) : Expr → σ → Expr × σ
  | literal v, s => w.onNode (literal v) s
  | column c, s =>
      let (c, s) := w.onColumn c s
      w.onNode (column c) s
  | paren e, s =>
      let (e, s) := e.rewrite w s
      w.onNode (paren e) s
  | compare l op r, s =>
      let (l, s) := l.rewrite w s
      let (r, s) := r.rewrite w s
      w.onNode (compare l op r) s
  | connect l op r, s =>
      let (l, s) := l.rewrite w s
      let (r, s) := r.rewrite w s
      w.onNode (connect l op r) s
  | call name args, s =>
      let (args, s) := rewriteAll w args s
      w.onNode (call name args) s

def rewriteAll {σ : Type} (w : Rewriter σ) : List Expr → σ → List Expr × σ
  | [], s => ([], s)
  | e :: es, s =>
      let (e, s) := e.rewrite w s
      let (es, s) := rewriteAll w es s
      (e :: es, s)

end

end Expr

end DocWalk
