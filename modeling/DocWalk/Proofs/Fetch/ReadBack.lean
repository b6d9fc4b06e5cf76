import DocWalk.Proofs.Expr.ReadBack
import DocWalk.Proofs.Fetch.Reading
import DocWalk.Proofs.Traversal.Conditions

/-!
# Reading the filter of a fetch back

Steps make comparisons, disjunctions of comparisons and function calls, and a
conjunction puts both of its sides in parentheses. Such a filter fits as it
is, so its text is read back as the tree that was written, in both dialects
and whatever text the steps carry.
-/

namespace DocWalk

open Text

namespace Expr

theorem fits_propertyIs {name : String} (h : IsOperand name) {p : Nat} (hp : p ≤ 2)
    (key : String) (v : Value) : Fits p (propertyIs name key v) :=
  .compare hp (.column _ h) (.literal _ v)

theorem fits_or {l r : Expr} (hl : Fits 0 l) (hr : Fits 1 r) : Fits 0 (connect l .or r) :=
  .connect (Nat.zero_le _) hl hr

/-- A conjunction with both sides in parentheses fits, whatever stands inside them. -/
theorem fits_and {l r : Expr} (hl : Fits 0 l) (hr : Fits 0 r) :
    Fits 0 (connect (paren l) .and (paren r)) :=
  .connect (Nat.zero_le _) (.paren _ hl) (.paren _ hr)

/-- On a variable whose name is an operand, every filter fits: disjunctions are nested to the left
and need no parentheses. -/
theorem fits_conjunctive : Conjunctive fun name e => IsOperand name → Fits 0 e := by
  apply conjunctive_of_atoms
  · intro name key op v h
    exact .compare (Nat.zero_le 2) (.column _ h) (.literal _ v)
  · intro name key h
    have hn : IsOperand definedFunction :=
      (solid_of_all rfl).isOperand (c := '_') (by decide) (by decide)
    apply Fits.call 0 hn
    intro e he
    cases List.mem_singleton.mp he
    exact .column 0 h
  · intro name _
    exact .literal 0 (.bool false)
  · intro name e key v he h
    exact fits_or (he h) (fits_propertyIs h (Nat.le_succ 1) key v)
  · intro name l r hl hr h
    exact fits_and (hl h) (hr h)

end Expr

theorem isOperand_vertexAlias (n : Nat) : IsOperand (vertexAlias n) :=
  isOperand_numbered (solid_of_all rfl) (by decide) n

theorem isOperand_edgeAlias (n : Nat) : IsOperand (edgeAlias n) :=
  isOperand_numbered (solid_of_all rfl) (by decide) n

theorem Trail.Layout.isOperand_alias {t : Trail} (ht : t.Layout) {v : Variable}
    (hv : v ∈ t.variables) : IsOperand v.alias := by
  rcases ht.numbered (mem_aliases hv) with ⟨n, _, hn⟩ | ⟨n, _, hn⟩
  · rw [hn]
    exact isOperand_vertexAlias n
  · rw [hn]
    exact isOperand_edgeAlias n

/-- Every filter of a run fits. -/
theorem Trail.fits_of_run {steps : List Step} {t : Trail} (h : empty.run steps = .ok t)
    {v : Variable} (hv : v ∈ t.variables) : ∀ e ∈ v.filter, Expr.Fits 0 e := by
  intro e he
  have ht := empty_wellFormed.run h
  exact filtersSatisfy_of_run Expr.fits_conjunctive h v hv e he (ht.toLayout.isOperand_alias hv)

theorem Reading.fits_filter? {r : Reading} (h : ∀ w ∈ r.members, ∀ e ∈ w.filter, Expr.Fits 0 e) :
    Expr.Fits 0 (r.filter?.getD (Expr.truth true)) := by
  have hall := Reading.forall_mem_filter? (fun _ _ => Expr.fits_and) h
  cases hf : r.filter? with
  | none => exact .literal 0 (.bool true)
  | some e => exact hall e hf

namespace Fetch

theorem DocumentDB.fits_adapt {filter : Expr} (h : filter.Fits 0) (q : Fetch) :
    (adapt q filter).1.Fits 0 :=
  (h.fold.hoist q.storage).bracket q.edge.toList

theorem JsonServer.fits_adapt {filter : Expr} (h : filter.Fits 0) (q : Fetch) :
    (adapt q filter).Fits 0 :=
  h.fold.unfold q.storage

end Fetch

/-- In both dialects the text of a filter, read by precedence, is the filter that was written: no
identifier, label, property or value that a step carries changes how the text is read. -/
theorem compiled_filter_readBack {settings : CompilerSettings} {steps : List Step} {q : Fetch}
    (h : Compiled settings steps q) :
    ∃ e, q.filter = some e ∧
      Parsed.ofText? ((Fetch.DocumentDB.adapt q e).1.inQuery .documentDB) =
        some ((Fetch.DocumentDB.adapt q e).1.form .documentDB) ∧
      Parsed.ofText? ((Fetch.JsonServer.adapt q e).inQuery .jsonServer) =
        some ((Fetch.JsonServer.adapt q e).form .jsonServer) := by
  obtain ⟨t, v, r, ht, hv, hr, rfl⟩ := h.exists_reading
  have hfit : Expr.Fits 0 (r.filter?.getD (Expr.truth true)) := by
    apply Reading.fits_filter?
    intro w hw
    exact Trail.fits_of_run ht (hr.members_mem hv w hw)
  refine ⟨_, Fetch.filter_ofReading settings r v.alias, ?_, ?_⟩
  · exact (Fetch.DocumentDB.fits_adapt hfit _).ofText?_inQuery .documentDB
  · exact (Fetch.JsonServer.fits_adapt hfit _).ofText?_inQuery .jsonServer

/-- A traversal that carries quotes, parentheses and operators in every text it has. -/
def throughMarks : List Step :=
  [.vertices ["\") OR (1 = 1", "\x27, \\"], .has "a \"] AND (b" (.within [.text "x", .int (-3)]),
    .has "" .present, .hop .outgoing [") OR (", "AND"], .has "*" (.compare .less (.text "\n)"))]

theorem compiled_filter_readBack_throughMarks :
    ∃ q, compileVariable {} throughMarks "N_0" = .ok q ∧ ∃ e, q.filter = some e ∧
      Parsed.ofText? ((Fetch.DocumentDB.adapt q e).1.inQuery .documentDB) =
        some ((Fetch.DocumentDB.adapt q e).1.form .documentDB) ∧
      Parsed.ofText? ((Fetch.JsonServer.adapt q e).inQuery .jsonServer) =
        some ((Fetch.JsonServer.adapt q e).form .jsonServer) := by
  obtain ⟨q, h⟩ : ∃ q, compileVariable {} throughMarks "N_0" = .ok q := ⟨_, rfl⟩
  exact ⟨q, h, compiled_filter_readBack (.inr ⟨"N_0", h⟩)⟩

end DocWalk
