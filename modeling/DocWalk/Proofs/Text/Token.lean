import DocWalk.Proofs.Text.Literal

/-!
# Tokens of query text

Query text is cut at spaces, parentheses and commas, except between quotes,
where a backslash takes the meaning from the character after it. Whatever
stands between two cuts is one word, its quotes and escapes kept as they are.

## Implementation notes

Two properties of text carry the proofs. `Solid` text stays within one word
wherever it stands. `Spells` says which tokens a text contributes in front of
any text that begins with a cut.
-/

namespace DocWalk

/-- A token of query text. -/
inductive Token where
  | word (text : String)
  | opening
  | closing
  | comma
deriving DecidableEq, Repr

namespace Token

/-- Where a reader of query text is: outside quotes, inside, or behind a backslash inside. -/
inductive Mode where
  | plain
  | quoted (quote : Char)
  | escaped (quote : Char)
deriving DecidableEq, Repr

namespace Mode

/-- The tokens of a character that ends a word; none for a character that is part of one. -/
def cut? : Mode → Char → Option (List Token)
  | plain, ' ' => some []
  | plain, '(' => some [opening]
  | plain, ')' => some [closing]
  | plain, ',' => some [comma]
  | _, _ => none

/-- The mode after a character of a word. -/
def next : Mode → Char → Mode
  | plain, c => if c = '"' ∨ c = '\x27' then quoted c else plain
  | quoted q, c => if c = '\\' then escaped q else if c = q then plain else quoted q
  | escaped q, _ => quoted q

end Mode

/-- The word that has been read, if it has any characters. -/
def ofChars (cs : List Char) : List Token :=
  if cs.isEmpty then [] else [word (String.ofList cs)]

/-- Read tokens, given the mode and the characters of the word begun; none where a quote is left
open. -/
def scan : Mode → List Char → List Char → Option (List Token)
  | .plain, begun, [] => some (ofChars begun)
  | _, _, [] => none
  | m, begun, c :: cs =>
      match m.cut? c with
      | some ts => (scan .plain [] cs).map (ofChars begun ++ ts ++ ·)
      | none => scan (m.next c) (begun ++ [c]) cs

/-- The tokens of a text. -/
def ofText (s : String) : Option (List Token) :=
  scan .plain [] s.toList

end Token

namespace Text

/-- Text that stays within one word wherever it stands outside quotes. -/
def Solid (cs : List Char) : Prop :=
  ∀ begun rest, Token.scan .plain begun (cs ++ rest) = Token.scan .plain (begun ++ cs) rest

theorem solid_nil : Solid [] := by
  intro begun rest
  simp

theorem Solid.append {as bs : List Char} (ha : Solid as) (hb : Solid bs) : Solid (as ++ bs) := by
  intro begun rest
  rw [List.append_assoc, ha, hb, List.append_assoc]

/-- The characters that end a word or open a quote. -/
def markers : List Char :=
  [' ', '(', ')', ',', '"', '\x27']

/-- Characters that neither end a word nor open a quote. -/
def isPlain (c : Char) : Bool :=
  !markers.contains c

theorem solid_singleton {c : Char} (h : isPlain c = true) : Solid [c] := by
  intro begun rest
  have hc : Token.Mode.plain.cut? c = none := by
    unfold Token.Mode.cut?
    split <;> simp_all [isPlain, markers]
  have hm : Token.Mode.plain.next c = .plain := by
    simp_all [isPlain, markers, Token.Mode.next]
  rw [List.singleton_append, Token.scan, hc, hm]

theorem solid_of_all {cs : List Char} (h : cs.all isPlain = true) : Solid cs := by
  induction cs with
  | nil => exact solid_nil
  | cons c cs ih =>
      obtain ⟨hc, hcs⟩ : isPlain c = true ∧ cs.all isPlain = true := by
        simpa only [List.all_cons, Bool.and_eq_true] using h
      exact (solid_singleton hc).append (ih hcs)

theorem scan_escapeChar {q : Char} (hq : q = '"' ∨ q = '\x27') (c : Char)
    (begun rest : List Char) :
    Token.scan (.quoted q) begun (escapeChar c ++ rest) =
      Token.scan (.quoted q) (begun ++ escapeChar c) rest := by
  rcases escapeChar_cases c with ⟨e, hc, -⟩ | ⟨hc, hnot⟩
  · simp [hc, Token.scan, Token.Mode.cut?, Token.Mode.next]
  · have hslash := ne_slash_of_notMem hnot
    have hquote := ne_quote_of_notMem hnot hq
    simp [hc, Token.scan, Token.Mode.cut?, Token.Mode.next, hslash, hquote]

/-- Escaped text does not leave the quotes around it. -/
theorem scan_escape {q : Char} (hq : q = '"' ∨ q = '\x27') (cs begun rest : List Char) :
    Token.scan (.quoted q) begun (cs.flatMap escapeChar ++ rest) =
      Token.scan (.quoted q) (begun ++ cs.flatMap escapeChar) rest := by
  induction cs generalizing begun with
  | nil => simp
  | cons c cs ih =>
      rw [List.flatMap_cons, List.append_assoc, scan_escapeChar hq, ih, List.append_assoc]

/-- A quoted literal stays within one word, whatever it quotes. -/
theorem solid_quoted {q : Char} (hq : q = '"' ∨ q = '\x27') (cs : List Char) :
    Solid (q :: cs.flatMap escapeChar ++ [q]) := by
  intro begun rest
  have hopen : Token.scan .plain begun (q :: (cs.flatMap escapeChar ++ q :: rest)) =
      Token.scan (.quoted q) (begun ++ [q]) (cs.flatMap escapeChar ++ q :: rest) := by
    rcases hq with rfl | rfl <;> simp [Token.scan, Token.Mode.cut?, Token.Mode.next]
  have hclose : ∀ w, Token.scan (.quoted q) w (q :: rest) = Token.scan .plain (w ++ [q]) rest := by
    intro w
    rcases hq with rfl | rfl <;> simp [Token.scan, Token.Mode.cut?, Token.Mode.next]
  calc Token.scan .plain begun (q :: cs.flatMap escapeChar ++ [q] ++ rest)
      = Token.scan (.quoted q) (begun ++ [q]) (cs.flatMap escapeChar ++ q :: rest) := by
        simpa using hopen
    _ = Token.scan (.quoted q) (begun ++ [q] ++ cs.flatMap escapeChar) (q :: rest) :=
        scan_escape hq cs _ _
    _ = Token.scan .plain (begun ++ [q] ++ cs.flatMap escapeChar ++ [q]) rest := hclose _
    _ = Token.scan .plain (begun ++ (q :: cs.flatMap escapeChar ++ [q])) rest := by simp

theorem solid_inDouble (s : String) : Solid (inDouble s).toList := by
  rw [toList_inDouble]
  exact solid_quoted (Or.inl rfl) s.toList

theorem solid_inSingle (s : String) : Solid (inSingle s).toList := by
  rw [toList_inSingle]
  exact solid_quoted (Or.inr rfl) s.toList

/-- Text that begins with a character that ends a word, or no text. -/
def Cuts (cs : List Char) : Prop :=
  ∀ c ∈ cs.head?, (Token.Mode.plain.cut? c).isSome

theorem cuts_nil : Cuts [] := by
  intro c hc
  cases hc

theorem cuts_cons {c : Char} {ts : List Token} (h : Token.Mode.plain.cut? c = some ts)
    (cs : List Char) : Cuts (c :: cs) := by
  intro c' hc'
  cases hc'
  rw [h]
  rfl

/-- In front of a cut, a word that was begun is done. -/
theorem scan_of_cuts {rest : List Char} (h : Cuts rest) (begun : List Char) :
    Token.scan .plain begun rest =
      (Token.scan .plain [] rest).map (Token.ofChars begun ++ ·) := by
  cases rest with
  | nil => simp [Token.scan, Token.ofChars]
  | cons c cs =>
      obtain ⟨ts, hts⟩ := Option.isSome_iff_exists.mp (h c rfl)
      simp only [Token.scan, hts, Option.map_map]
      congr 1
      funext x
      simp [Token.ofChars]

/-- The tokens that a text contributes where a cut follows it. -/
def Spells (cs : List Char) (ts : List Token) : Prop :=
  ∀ rest, Cuts rest →
    Token.scan .plain [] (cs ++ rest) = (Token.scan .plain [] rest).map (ts ++ ·)

theorem spells_nil : Spells [] [] := by
  intro rest _
  simp

/-- Solid text is one word. -/
theorem Solid.spells {s : String} (h : Solid s.toList) (hs : s.toList ≠ []) :
    Spells s.toList [.word s] := by
  intro rest hr
  rw [h, List.nil_append, scan_of_cuts hr, Token.ofChars, String.ofList_toList]
  simp [hs]

/-- A cut contributes its own tokens. -/
theorem Spells.cons {c : Char} {cs : List Char} {us ts : List Token}
    (hc : Token.Mode.plain.cut? c = some us) (h : Spells cs ts) : Spells (c :: cs) (us ++ ts) := by
  intro rest hr
  rw [List.cons_append, Token.scan]
  simp only [hc, h rest hr, Option.map_map]
  congr 1
  funext x
  simp [Token.ofChars]

/-- Texts with a cut between them contribute their tokens one after the other. -/
theorem Spells.append {as bs : List Char} {ts us : List Token} (ha : Spells as ts)
    (hb : Spells bs us) (hc : Cuts bs) : Spells (as ++ bs) (ts ++ us) := by
  intro rest hr
  have hcut : Cuts (bs ++ rest) := by
    cases bs with
    | nil => exact hr
    | cons b bs => exact hc
  rw [List.append_assoc, ha _ hcut, hb rest hr, Option.map_map]
  congr 1
  funext x
  simp

/-- Texts in a list contribute their tokens with a comma between each two. -/
theorem spells_intercalate {α : Type} {text : α → String} {tokens : α → List Token} (as : List α)
    (h : ∀ a ∈ as, Spells (text a).toList (tokens a)) :
    Spells (", ".intercalate (as.map text)).toList
      ([Token.comma].intercalate (as.map tokens)) := by
  induction as with
  | nil => exact spells_nil
  | cons a as ih =>
      have ha := h a List.mem_cons_self
      have hrest := ih fun b hb => h b (List.mem_cons_of_mem a hb)
      cases as with
      | nil => simpa using ha
      | cons b bs =>
          have hcomma : Token.Mode.plain.cut? ',' = some [.comma] := rfl
          have hspace : Token.Mode.plain.cut? ' ' = some [] := rfl
          have hall := ha.append ((hrest.cons hspace).cons hcomma) (cuts_cons hcomma _)
          simpa [String.intercalate_cons_cons, List.intercalate_cons_cons] using hall

theorem Spells.ofText_eq {s : String} {ts : List Token} (h : Spells s.toList ts) :
    Token.ofText s = some ts := by
  have hs := h [] cuts_nil
  simpa [Token.ofText, Token.scan, Token.ofChars] using hs

end Text

end DocWalk
