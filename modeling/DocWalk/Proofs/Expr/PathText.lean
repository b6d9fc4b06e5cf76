import DocWalk.Proofs.Expr.Operand

/-!
# Reading a path back from its text

A path is written segment by segment, and names may hold dots, brackets,
quotes and stars. Its text tells nevertheless where each segment ends and how
it was written: a name that stands after a dot has none of these characters,
and any other name is quoted. Two paths have one text exactly where they have
the same segments, but for the choice of `Segment.key` or `Segment.member` for
a name that needs brackets either way.

## Implementation notes

One reader serves both dialects: a bracket is read in the same way with a dot
before it and without. A name after a dot ends at the first character that no
name has, so the reader is right about text that does not go on with one; the
text of a path never does.
-/

namespace DocWalk

open Text

namespace Segment

/-- How a path segment is written. -/
inductive Form where
  /-- A name after a dot. -/
  | dotted (name : String)
  /-- A name in quotes and brackets. -/
  | bracketed (name : String)
  /-- A star after a dot. -/
  | wildcard
deriving DecidableEq, Repr

/-- The text of a form. -/
def Form.inQuery (d : Dialect) : Form → String
  | dotted name => "." ++ name
  | bracketed name => d.bracketed name
  | wildcard => ".*"

/-- The form of a segment: only a property whose name allows it is written after a dot. -/
def form : Segment → Form
  | member name => if isName name then .dotted name else .bracketed name
  | key name => .bracketed name
  | wildcard => .wildcard

theorem inQuery_eq_form (d : Dialect) (s : Segment) : s.inQuery d = s.form.inQuery d := by
  cases s with
  | member name =>
      rw [inQuery, form]
      split <;> rfl
  | key name => rfl
  | wildcard => rfl

section Reading

/-- Read a name in brackets from behind its opening quote, and what follows the brackets. -/
def readBracketed (cs : List Char) : Option (Form × List Char) :=
  match scanQuoted '"' cs with
  | some (name, ']' :: rest) => some (.bracketed (String.ofList name), rest)
  | _ => none

/-- Read the segment that a text begins with, and what follows it. -/
def readForm : List Char → Option (Form × List Char)
  | '.' :: '*' :: rest => some (.wildcard, rest)
  | '.' :: '[' :: '"' :: rest => readBracketed rest
  | '[' :: '"' :: rest => readBracketed rest
  | '.' :: rest =>
      some (.dotted (String.ofList (rest.takeWhile isNameRest)), rest.dropWhile isNameRest)
  | _ => none

/-- Text that does not go on with a name. -/
def EndsName (rest : List Char) : Prop :=
  ∀ c ∈ rest.head?, isNameRest c = false

theorem readBracketed_escape (name : String) (rest : List Char) :
    readBracketed (name.toList.flatMap escapeChar ++ '"' :: ']' :: rest) =
      some (.bracketed name, rest) := by
  simp only [readBracketed, scanQuoted_escape (Or.inl rfl), String.ofList_toList]

/-- A name in brackets is read back, in either dialect and whatever follows. -/
theorem readForm_bracketed (d : Dialect) (name : String) (rest : List Char) :
    readForm ((d.bracketed name).toList ++ rest) = some (.bracketed name, rest) := by
  have hinner : (inDouble name).toList ++ ']' :: rest =
      '"' :: (name.toList.flatMap escapeChar ++ '"' :: ']' :: rest) := by
    simp [toList_inDouble]
  cases d with
  | documentDB =>
      have htext : (Dialect.documentDB.bracketed name).toList ++ rest =
          '[' :: ((inDouble name).toList ++ ']' :: rest) := by
        simp [Dialect.bracketed]
      rw [htext, hinner, readForm, readBracketed_escape]
  | jsonServer =>
      have htext : (Dialect.jsonServer.bracketed name).toList ++ rest =
          '.' :: '[' :: ((inDouble name).toList ++ ']' :: rest) := by
        simp [Dialect.bracketed]
      rw [htext, hinner, readForm, readBracketed_escape]

theorem takeWhile_append_of_endsName {cs rest : List Char} (hcs : cs.all isNameRest = true)
    (h : EndsName rest) :
    (cs ++ rest).takeWhile isNameRest = cs ∧ (cs ++ rest).dropWhile isNameRest = rest := by
  rw [List.all_eq_true] at hcs
  rw [List.takeWhile_append_of_pos hcs, List.dropWhile_append_of_pos hcs]
  cases rest with
  | nil => simp
  | cons c rest => simp [h c rfl]

/-- After a dot, anything but a star and a bracket is a name. -/
theorem readForm_dot {cs : List Char} (hstar : cs.head? ≠ some '*')
    (hbracket : cs.head? ≠ some '[') :
    readForm ('.' :: cs) =
      some (.dotted (String.ofList (cs.takeWhile isNameRest)), cs.dropWhile isNameRest) := by
  unfold readForm
  split
  next h =>
    cases h
    exact absurd rfl hstar
  next h =>
    cases h
    exact absurd rfl hbracket
  next h => cases h
  next h =>
    cases h
    rfl
  next h => exact absurd rfl (h cs)

/-- A name after a dot is read back in front of text that does not go on with a name. -/
theorem readForm_dotted {name : String} (hn : isName name = true) {rest : List Char}
    (h : EndsName rest) : readForm ('.' :: (name.toList ++ rest)) = some (.dotted name, rest) := by
  have hstart : ∀ c, (name.toList ++ rest).head? = some c → isNameStart c = true := by
    intro c hc
    cases hname : name.toList with
    | nil => simp [isName, hname] at hn
    | cons a as =>
        rw [hname] at hc
        cases hc
        simp only [isName, hname, Bool.and_eq_true] at hn
        exact hn.1
  have hstar : (name.toList ++ rest).head? ≠ some '*' := fun hc => absurd (hstart _ hc) (by decide)
  have hbracket : (name.toList ++ rest).head? ≠ some '[' := fun hc =>
    absurd (hstart _ hc) (by decide)
  obtain ⟨htake, hdrop⟩ := takeWhile_append_of_endsName (all_isNameRest_of_isName hn) h
  rw [readForm_dot hstar hbracket, htake, hdrop, String.ofList_toList]

/-- A segment is read back in front of text that does not go on with a name. -/
theorem readForm_inQuery (d : Dialect) (s : Segment) {rest : List Char} (h : EndsName rest) :
    readForm ((s.inQuery d).toList ++ rest) = some (s.form, rest) := by
  cases s with
  | member name =>
      by_cases hn : isName name = true
      · have htext : (inQuery d (member name)).toList ++ rest = '.' :: (name.toList ++ rest) := by
          simp [inQuery, hn]
        rw [htext, readForm_dotted hn h, form, if_pos hn]
      · rw [inQuery, form, if_neg hn, if_neg hn]
        exact readForm_bracketed d name rest
  | key name => exact readForm_bracketed d name rest
  | wildcard =>
      have htext : (inQuery d wildcard).toList ++ rest = '.' :: '*' :: rest := by
        simp [inQuery]
      rw [htext, readForm, form]

end Reading

section Paths

variable {d : Dialect}

theorem endsName_nil : EndsName [] := by
  intro c hc
  cases hc

/-- Every segment begins with a mark that no name has. -/
theorem endsName_inQuery (d : Dialect) (s : Segment) (rest : List Char) :
    EndsName ((s.inQuery d).toList ++ rest) := by
  have hhead : ((s.inQuery d).toList ++ rest).head? ∈ [some '.', some '['] := by
    rw [inQuery_eq_form]
    cases s.form with
    | dotted name => simp [Form.inQuery]
    | bracketed name => cases d <;> simp [Form.inQuery, Dialect.bracketed]
    | wildcard => simp [Form.inQuery]
  intro c hc
  rw [Option.mem_def.mp hc] at hhead
  simp only [List.mem_cons, Option.some.injEq, List.not_mem_nil, or_false] at hhead
  rcases hhead with rfl | rfl <;> rfl

theorem endsName_join (d : Dialect) (p : List Segment) :
    EndsName (String.join (p.map (inQuery d))).toList := by
  cases p with
  | nil => exact endsName_nil
  | cons s p =>
      rw [List.map_cons, String.join_cons, String.toList_append]
      exact endsName_inQuery d s _

/-- The text of a path is its first segment, which can be read, and the text of the rest. -/
theorem readForm_join_cons (d : Dialect) (s : Segment) (p : List Segment) :
    readForm (String.join ((s :: p).map (inQuery d))).toList =
      some (s.form, (String.join (p.map (inQuery d))).toList) := by
  rw [List.map_cons, String.join_cons, String.toList_append]
  exact readForm_inQuery d s (endsName_join d p)

/-- Paths with one text have segments of the same forms. -/
theorem map_form_eq_of_join_eq {p q : List Segment}
    (h : String.join (p.map (inQuery d)) = String.join (q.map (inQuery d))) :
    p.map form = q.map form := by
  induction p generalizing q with
  | nil =>
      cases q with
      | nil => rfl
      | cons t q =>
          have hread := readForm_join_cons d t q
          rw [← h] at hread
          cases hread
  | cons s p ih =>
      have hread := readForm_join_cons d s p
      rw [h] at hread
      cases q with
      | nil => cases hread
      | cons t q =>
          rw [readForm_join_cons, Option.some.injEq, Prod.mk.injEq] at hread
          rw [List.map_cons, List.map_cons, hread.1, ih (String.toList_injective hread.2.symm)]

end Paths

end Segment

/-- The text of a column tells its path: in each dialect two columns of one table have the same text
exactly where their paths have segments of the same forms, so as many segments, a star where the
other has one, and the same names after a dot and in brackets. -/
theorem Column.inQuery_eq_iff (d : Dialect) (table : String) (p q : List Segment) :
    Column.inQuery d ⟨table, p⟩ = Column.inQuery d ⟨table, q⟩ ↔
      p.map Segment.form = q.map Segment.form := by
  rw [inQuery, inQuery, String.append_right_inj]
  constructor
  · exact Segment.map_form_eq_of_join_eq
  · intro h
    have htext (p : List Segment) : p.map (Segment.inQuery d) =
        (p.map Segment.form).map (Segment.Form.inQuery d) := by
      rw [List.map_map]
      exact List.map_congr_left fun s _ => s.inQuery_eq_form d
    rw [htext, htext, h]

end DocWalk
