import DocWalk.Expr.Property
import DocWalk.Proofs.Expr.Fold

/-!
# The columns of an expression

What a pass does to the columns of an expression, told without the expression
around them. A pass that replaces columns one by one is determined by what it
does to those that occur, and two such passes are one.

A walk that changes nothing but columns meets them in the order in which they
are listed. Its states are therefore those of a walk over the list, and where
it replaces each of them as one function does, it is this replacement.
-/

namespace DocWalk

namespace Expr

mutual

/-- The columns of an expression, from left to right. -/
def columns : Expr → List Column
  | literal _ => []
  | column c => [c]
  | paren e => e.columns
  | compare l _ r => l.columns ++ r.columns
  | connect l _ r => l.columns ++ r.columns
  | call _ args => columnsAll args

def columnsAll : List Expr → List Column
  | [] => []
  | e :: es => e.columns ++ columnsAll es

end

@[simp] theorem columns_literal (v : Value) : (literal v).columns = [] := rfl

@[simp] theorem columns_column (c : Column) : (column c).columns = [c] := rfl

@[simp] theorem columns_paren (e : Expr) : (paren e).columns = e.columns := rfl

@[simp] theorem columns_compare (l : Expr) (op : Comparator) (r : Expr) :
    (compare l op r).columns = l.columns ++ r.columns := rfl

@[simp] theorem columns_connect (l : Expr) (op : Connective) (r : Expr) :
    (connect l op r).columns = l.columns ++ r.columns := rfl

@[simp] theorem columns_call (name : String) (args : List Expr) :
    (call name args).columns = columnsAll args := rfl

@[simp] theorem columnsAll_nil : columnsAll [] = [] := rfl

@[simp] theorem columnsAll_cons (e : Expr) (es : List Expr) :
    columnsAll (e :: es) = e.columns ++ columnsAll es := rfl

section Replacing

mutual

/-- Replace every column. -/
def mapColumns (f : Column → Column) : Expr → Expr
  | literal v => literal v
  | column c => column (f c)
  | paren e => paren (e.mapColumns f)
  | compare l op r => compare (l.mapColumns f) op (r.mapColumns f)
  | connect l op r => connect (l.mapColumns f) op (r.mapColumns f)
  | call name args => call name (mapColumnsAll f args)

def mapColumnsAll (f : Column → Column) : List Expr → List Expr
  | [] => []
  | e :: es => e.mapColumns f :: mapColumnsAll f es

end

variable (f g : Column → Column)

theorem mapColumnsAll_eq_map (f : Column → Column) (es : List Expr) :
    mapColumnsAll f es = es.map (mapColumns f) := by
  induction es with
  | nil => rfl
  | cons e es ih => simp [mapColumnsAll, ih]

/-- What does not tell the new columns from the old ones is kept. -/
theorem Compositional.mapColumns_eq {α : Type} {h : Expr → α} (hh : Compositional h)
    (hcolumn : ∀ c, h (.column (f c)) = h (.column c)) (e : Expr) : h (e.mapColumns f) = h e := by
  induction e using Expr.induction with
  | literal v => rfl
  | column c => exact hcolumn c
  | paren e ih => exact hh.paren ih
  | compare l op r ihl ihr => exact hh.compare op ihl ihr
  | connect l op r ihl ihr => exact hh.connect op ihl ihr
  | call name args ih =>
      rw [mapColumns, mapColumnsAll_eq_map]
      apply hh.call name
      rw [List.map_map]
      exact List.map_congr_left ih

mutual

theorem columns_mapColumns (e : Expr) : (e.mapColumns f).columns = e.columns.map f := by
  cases e with
  | literal v => rfl
  | column c => rfl
  | paren e => exact columns_mapColumns e
  | compare l op r =>
      rw [mapColumns, columns_compare, columns_mapColumns l, columns_mapColumns r,
        columns_compare, List.map_append]
  | connect l op r =>
      rw [mapColumns, columns_connect, columns_mapColumns l, columns_mapColumns r,
        columns_connect, List.map_append]
  | call name args => exact columnsAll_mapColumnsAll args

theorem columnsAll_mapColumnsAll (es : List Expr) :
    columnsAll (mapColumnsAll f es) = (columnsAll es).map f := by
  cases es with
  | nil => rfl
  | cons e es =>
      rw [mapColumnsAll, columnsAll_cons, columns_mapColumns e, columnsAll_mapColumnsAll es,
        columnsAll_cons, List.map_append]

end

mutual

/-- Two replacements one after the other are one. -/
theorem mapColumns_mapColumns (e : Expr) :
    (e.mapColumns f).mapColumns g = e.mapColumns fun c => g (f c) := by
  cases e with
  | literal v => rfl
  | column c => rfl
  | paren e => rw [mapColumns, mapColumns, mapColumns_mapColumns e, mapColumns]
  | compare l op r =>
      rw [mapColumns, mapColumns, mapColumns_mapColumns l, mapColumns_mapColumns r, mapColumns]
  | connect l op r =>
      rw [mapColumns, mapColumns, mapColumns_mapColumns l, mapColumns_mapColumns r, mapColumns]
  | call name args => rw [mapColumns, mapColumns, mapColumnsAll_mapColumnsAll args, mapColumns]

theorem mapColumnsAll_mapColumnsAll (es : List Expr) :
    mapColumnsAll g (mapColumnsAll f es) = mapColumnsAll (fun c => g (f c)) es := by
  cases es with
  | nil => rfl
  | cons e es =>
      rw [mapColumnsAll, mapColumnsAll, mapColumns_mapColumns e, mapColumnsAll_mapColumnsAll es,
        mapColumnsAll]

end

variable {f g}

mutual

/-- Replacements that agree on the columns that occur are the same. -/
theorem mapColumns_congr {e : Expr} (h : ∀ c ∈ e.columns, f c = g c) :
    e.mapColumns f = e.mapColumns g := by
  cases e with
  | literal v => rfl
  | column c => rw [mapColumns, h c (by simp), mapColumns]
  | paren e =>
      have he : ∀ c ∈ e.columns, f c = g c := h
      rw [mapColumns, mapColumns_congr he, mapColumns]
  | compare l op r =>
      obtain ⟨hl, hr⟩ := List.forall_mem_append.mp h
      rw [mapColumns, mapColumns_congr hl, mapColumns_congr hr, mapColumns]
  | connect l op r =>
      obtain ⟨hl, hr⟩ := List.forall_mem_append.mp h
      rw [mapColumns, mapColumns_congr hl, mapColumns_congr hr, mapColumns]
  | call name args =>
      have hargs : ∀ c ∈ columnsAll args, f c = g c := h
      rw [mapColumns, mapColumnsAll_congr hargs, mapColumns]

theorem mapColumnsAll_congr {es : List Expr} (h : ∀ c ∈ columnsAll es, f c = g c) :
    mapColumnsAll f es = mapColumnsAll g es := by
  cases es with
  | nil => rfl
  | cons e es =>
      obtain ⟨he, hes⟩ := List.forall_mem_append.mp h
      rw [mapColumnsAll, mapColumns_congr he, mapColumnsAll_congr hes, mapColumnsAll]

end

theorem mapColumns_inj {e : Expr} :
    e.mapColumns f = e.mapColumns g ↔ ∀ c ∈ e.columns, f c = g c := by
  constructor
  · intro h
    have hc := congrArg columns h
    rwa [columns_mapColumns, columns_mapColumns, List.map_inj_left] at hc
  · exact mapColumns_congr

theorem mapColumns_id (e : Expr) : e.mapColumns id = e := by
  induction e using Expr.induction with
  | literal v => rfl
  | column c => rfl
  | paren e ih => rw [mapColumns, ih]
  | compare l op r ihl ihr => rw [mapColumns, ihl, ihr]
  | connect l op r ihl ihr => rw [mapColumns, ihl, ihr]
  | call name args ih =>
      have hargs : args.map (mapColumns id) = args.map id := List.map_congr_left ih
      rw [mapColumns, mapColumnsAll_eq_map, hargs, List.map_id]

/-- A replacement leaves an expression alone exactly where it leaves its columns alone. -/
theorem mapColumns_eq_self_iff {e : Expr} : e.mapColumns f = e ↔ ∀ c ∈ e.columns, f c = c := by
  have h : e.mapColumns f = e.mapColumns id ↔ ∀ c ∈ e.columns, f c = id c := mapColumns_inj
  rwa [mapColumns_id] at h

end Replacing

end Expr

namespace Rewriter

variable {σ : Type} (w : Rewriter σ) (f : Column → Column)

/-- A walk that leaves everything but columns alone. -/
def OnlyColumns : Prop :=
  ∀ e s, w.onNode e s = (e, s)

/-- The state after a list of columns. -/
def after (s : σ) (cs : List Column) : σ :=
  cs.foldl (fun s c => (w.onColumn c s).2) s

theorem after_cons (s : σ) (c : Column) (cs : List Column) :
    w.after s (c :: cs) = w.after (w.onColumn c s).2 cs := rfl

theorem after_append (s : σ) (cs ds : List Column) :
    w.after s (cs ++ ds) = w.after (w.after s cs) ds :=
  List.foldl_append

/-- Met one after another, columns are replaced as by the function. -/
def Maps : σ → List Column → Prop
  | _, [] => True
  | s, c :: cs => (w.onColumn c s).1 = f c ∧ Maps (w.onColumn c s).2 cs

variable {w f}

theorem maps_append {s : σ} {cs ds : List Column} :
    w.Maps f s (cs ++ ds) ↔ w.Maps f s cs ∧ w.Maps f (w.after s cs) ds := by
  induction cs generalizing s with
  | nil => simp [Maps, after]
  | cons c cs ih => rw [List.cons_append, Maps, Maps, ih, and_assoc, after_cons]

theorem after_of_forall {s : σ} (h : ∀ c, w.onColumn c s = (f c, s)) (cs : List Column) :
    w.after s cs = s := by
  induction cs with
  | nil => rfl
  | cons c cs ih => rw [after_cons, h, ih]

theorem maps_of_forall {s : σ} (h : ∀ c, w.onColumn c s = (f c, s)) (cs : List Column) :
    w.Maps f s cs := by
  induction cs with
  | nil => trivial
  | cons c cs ih =>
      rw [Maps, h]
      exact ⟨rfl, ih⟩

end Rewriter

namespace Expr

section Walking

variable {σ : Type} {w : Rewriter σ} {f : Column → Column}

mutual

/-- A walk that changes nothing but columns is a replacement of them. -/
theorem rewrite_eq (hw : w.OnlyColumns) {e : Expr} {s : σ} (h : w.Maps f s e.columns) :
    e.rewrite w s = (e.mapColumns f, w.after s e.columns) := by
  cases e with
  | literal v => exact hw _ s
  | column c =>
      have hc : w.onColumn c s = (f c, (w.onColumn c s).2) := by rw [← h.1]
      rw [rewrite, hc]
      exact hw _ _
  | paren e =>
      rw [rewrite, rewrite_eq hw (e := e) h]
      exact hw _ _
  | compare l op r =>
      obtain ⟨hl, hr⟩ := Rewriter.maps_append.mp h
      rw [rewrite, rewrite_eq hw hl]
      simp only [rewrite_eq hw hr, hw _]
      rw [columns_compare, Rewriter.after_append, mapColumns]
  | connect l op r =>
      obtain ⟨hl, hr⟩ := Rewriter.maps_append.mp h
      rw [rewrite, rewrite_eq hw hl]
      simp only [rewrite_eq hw hr, hw _]
      rw [columns_connect, Rewriter.after_append, mapColumns]
  | call name args =>
      have hargs : w.Maps f s (columnsAll args) := h
      rw [rewrite, rewriteAll_eq hw hargs]
      exact hw _ _

theorem rewriteAll_eq (hw : w.OnlyColumns) {es : List Expr} {s : σ}
    (h : w.Maps f s (columnsAll es)) :
    rewriteAll w es s = (mapColumnsAll f es, w.after s (columnsAll es)) := by
  cases es with
  | nil => rfl
  | cons e es =>
      obtain ⟨he, hes⟩ := Rewriter.maps_append.mp h
      rw [rewriteAll, rewrite_eq hw he]
      simp only [rewriteAll_eq hw hes]
      rw [columnsAll_cons, Rewriter.after_append, mapColumnsAll]

end

/-- A walk that carries its state along unchanged replaces all columns in the same way. -/
theorem rewrite_of_forall (hw : w.OnlyColumns) {s : σ} (h : ∀ c, w.onColumn c s = (f c, s))
    (e : Expr) :
    e.rewrite w s = (e.mapColumns f, s) := by
  rw [rewrite_eq hw (Rewriter.maps_of_forall h e.columns), Rewriter.after_of_forall h]

end Walking

theorem unfold_eq (s : Storage) (e : Expr) : e.unfold s = e.mapColumns (Column.unfold s) := by
  have h := rewrite_of_forall (w := Unfolder.rewriter) (fun _ _ => rfl) (s := ⟨s⟩)
    (f := Column.unfold s) (fun _ => rfl) e
  exact congrArg Prod.fst h

theorem bracket_eq (tables : List String) (e : Expr) :
    e.bracket tables = e.mapColumns (Column.bracket tables) := by
  cases tables with
  | nil => exact (mapColumns_id e).symm
  | cons table tables =>
      have h := rewrite_of_forall (w := Bracketer.rewriter) (fun _ _ => rfl)
        (s := ⟨table :: tables⟩) (f := Column.bracket (table :: tables)) (fun _ => rfl) e
      exact congrArg Prod.fst h

theorem columnsAll_eq_flatten (es : List Expr) : columnsAll es = (es.map columns).flatten := by
  induction es with
  | nil => rfl
  | cons e es ih => rw [columnsAll, ih, List.map_cons, List.flatten_cons]

theorem columns_compositional : Compositional columns where
  paren := id
  compare op hl hr := by rw [columns_compare, columns_compare, hl, hr]
  connect op hl hr := by rw [columns_connect, columns_connect, hl, hr]
  call name h := by
    rw [columns_call, columns_call, columnsAll_eq_flatten, columnsAll_eq_flatten, h]

/-- Folding leaves every column where it is. -/
theorem columns_fold (e : Expr) : e.fold.columns = e.columns :=
  columns_compositional.fold_eq (fun _ _ _ _ _ => rfl) e

end Expr

end DocWalk
