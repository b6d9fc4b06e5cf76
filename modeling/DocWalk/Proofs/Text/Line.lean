import DocWalk.Proofs.Expr.Operand

/-!
# Lines of query text

A text breaks into lines at its line breaks. Quoting writes a line break as an
escape, names and numbers have none, so an operand stays on one line whatever
it quotes.
-/

namespace DocWalk

namespace Text

/-- Text without a line break. -/
def OneLine (s : String) : Prop :=
  '\n' ∉ s.toList

instance (s : String) : Decidable (OneLine s) :=
  inferInstanceAs (Decidable ('\n' ∉ s.toList))

/-- The lines of a text. -/
def lines (s : String) : List String :=
  (s.toList.splitOn '\n').map String.ofList

theorem lines_of_oneLine {s : String} (h : OneLine s) : lines s = [s] := by
  rw [lines, List.splitOn_eq_singleton h, List.map_singleton, String.ofList_toList]

/-- Up to its first line break a text is one line. -/
theorem lines_append {s : String} (h : OneLine s) (rest : String) :
    lines (s ++ "\n" ++ rest) = s :: lines rest := by
  have hl : (s ++ "\n" ++ rest).toList = s.toList ++ '\n' :: rest.toList := by
    simp
  rw [lines, hl, List.splitOn_append_cons_self_of_not_mem h, List.map_cons, String.ofList_toList,
    lines]

/-- Lines that are written one after the other are read as they were written. -/
theorem lines_join {ss : List String} (h : ∀ s ∈ ss, OneLine s) (rest : String) :
    lines (String.join (ss.map (· ++ "\n")) ++ rest) = ss ++ lines rest := by
  induction ss with
  | nil => simp
  | cons s ss ih =>
      obtain ⟨hs, hss⟩ := List.forall_mem_cons.mp h
      rw [List.map_cons, String.join_cons, String.append_assoc, lines_append hs, ih hss,
        List.cons_append]

@[simp] theorem oneLine_append {s t : String} : OneLine (s ++ t) ↔ OneLine s ∧ OneLine t := by
  simp [OneLine]

theorem oneLine_join {ss : List String} (h : ∀ s ∈ ss, OneLine s) : OneLine (String.join ss) := by
  induction ss with
  | nil => simp [OneLine]
  | cons s ss ih =>
      obtain ⟨hs, hss⟩ := List.forall_mem_cons.mp h
      rw [String.join_cons]
      exact oneLine_append.mpr ⟨hs, ih hss⟩

theorem oneLine_intercalate {sep : String} (hsep : OneLine sep) {ss : List String}
    (h : ∀ s ∈ ss, OneLine s) : OneLine (sep.intercalate ss) := by
  induction ss with
  | nil => simp [OneLine]
  | cons s ss ih =>
      obtain ⟨hs, hss⟩ := List.forall_mem_cons.mp h
      cases ss with
      | nil => simpa using hs
      | cons s' ss =>
          rw [String.intercalate_cons_cons]
          simp only [oneLine_append]
          exact ⟨⟨hs, hsep⟩, ih hss⟩

/-- Text whose characters all pass a test that a line break does not pass. -/
theorem oneLine_of_test {P : Char → Bool} (h : P '\n' = false) {s : String}
    (hs : s.toList.all P = true) : OneLine s := by
  intro hm
  have hp := List.all_eq_true.mp hs '\n' hm
  rw [h] at hp
  cases hp

theorem oneLine_escape (s : String) : OneLine (escape s) := by
  intro h
  rw [escape, String.toList_ofList, List.mem_flatMap] at h
  obtain ⟨c, _, hc⟩ := h
  exact break_notMem_escapeChar (by decide) c hc

theorem oneLine_inDouble (s : String) : OneLine (inDouble s) := by
  simp only [inDouble, oneLine_append]
  exact ⟨⟨by decide, oneLine_escape s⟩, by decide⟩

theorem oneLine_inSingle (s : String) : OneLine (inSingle s) := by
  simp only [inSingle, oneLine_append]
  exact ⟨⟨by decide, oneLine_escape s⟩, by decide⟩

theorem oneLine_repr (n : Nat) : OneLine (Nat.repr n) :=
  oneLine_of_test rfl (all_isNameRest_repr n)

theorem oneLine_numeral (n : Numeral) : OneLine (String.ofList n.chars) := by
  apply oneLine_of_test (P := Numeral.isNumeralChar) rfl
  rw [String.toList_ofList]
  exact n.all_chars

end Text

open Text

theorem Binary64.oneLine_text (x : Binary64) : OneLine x.text := by
  unfold text
  split
  · decide
  · split
    · split <;> decide
    · exact oneLine_numeral _

theorem Value.oneLine_inQuery (d : Dialect) (v : Value) : OneLine (v.inQuery d) := by
  cases v with
  | null => exact (by decide : OneLine "null")
  | bool b =>
      cases b with
      | true => exact (by decide : OneLine "true")
      | false => exact (by decide : OneLine "false")
  | int n => exact oneLine_numeral _
  | float x => exact x.oneLine_text
  | text s =>
      cases d with
      | documentDB => exact oneLine_inDouble s
      | jsonServer => exact oneLine_inSingle s

theorem Dialect.oneLine_bracketed (d : Dialect) (name : String) : OneLine (d.bracketed name) := by
  have hopen : OneLine "[" := by decide
  have hdot : OneLine ".[" := by decide
  have hclose : OneLine "]" := by decide
  cases d <;> simp [bracketed, hopen, hdot, hclose, oneLine_inDouble]

/-- A path segment stays on one line: a property that is not a name is quoted. -/
theorem Segment.oneLine_inQuery (d : Dialect) (s : Segment) : OneLine (s.inQuery d) := by
  cases s with
  | member name =>
      by_cases hn : isName name = true
      · have hdot : OneLine "." := by decide
        have hname : OneLine name := oneLine_of_test rfl (all_isNameRest_of_isName hn)
        simp [inQuery, hn, hdot, hname]
      · simpa [inQuery, hn] using d.oneLine_bracketed name
  | key name => exact d.oneLine_bracketed name
  | wildcard => exact (by decide : OneLine ".*")

theorem Column.oneLine_inQuery (d : Dialect) {c : Column} (h : OneLine c.table) :
    OneLine (c.inQuery d) := by
  rw [inQuery, oneLine_append]
  refine ⟨h, oneLine_join ?_⟩
  intro s hs
  obtain ⟨g, _, rfl⟩ := List.mem_map.mp hs
  exact g.oneLine_inQuery d

end DocWalk
