import Lox.Token.Lexer

/-!
# Where pieces end

A separator, such as a line break or a semicolon, ends every piece before it except an open string
and a comment. So the pieces of a text before a separator are the same whatever follows, unless the
last of them is a comment that takes the separator in.
-/

set_option autoImplicit false

namespace Lox

namespace Piece

/-- A block comment whose end is missing. -/
def isOpenComment : Piece → Bool
  | .comment ('/' :: '*' :: text) => !(['*', '/'].isSuffixOf text)
  | _ => false

/-- The piece, at the end of a text, takes in the character if it follows. -/
def absorbs (sep : Char) : Piece → Bool
  | .comment ('/' :: '/' :: _) => sep != '\n'
  | p => p.isOpenComment

/-- The character goes on with no piece but a string or a comment. -/
structure Separates (sep : Char) : Prop where
  digit : sep.isDigit = false
  name : isNameChar sep = false
  point : sep ≠ '.'
  comment : sep ≠ '/' ∧ sep ≠ '*'
  symbol : ∀ s : Symbol, sep ∉ s.chars.tail

theorem separates_newline : Separates '\n' where
  digit := rfl
  name := by decide
  point := by decide
  comment := by decide
  symbol := by
    intro s
    cases s <;> decide

theorem separates_semicolon : Separates ';' where
  digit := rfl
  name := by decide
  point := by decide
  comment := by decide
  symbol := by
    intro s
    cases s <;> decide

/-- A line break ends a line comment. -/
theorem absorbs_newline (p : Piece) : p.absorbs '\n' = p.isOpenComment := by
  unfold absorbs
  split
  · rfl
  · rfl

/-! ## The first piece -/

/-- A run of elements that ends within a list, or before what follows it, ends at the same place if
more follows. -/
theorem run_append {α : Type} (p : α → Bool) (xs ys : List α)
    (h : xs.dropWhile p ≠ [] ∨ ∀ y ∈ ys.head?, p y = false) :
    (xs ++ ys).takeWhile p = xs.takeWhile p ∧
      (xs ++ ys).dropWhile p = xs.dropWhile p ++ ys := by
  induction xs with
  | nil =>
    cases ys with
    | nil => exact ⟨rfl, rfl⟩
    | cons y ys =>
      have hy : p y = false := h.elim (absurd rfl) fun h => h y rfl
      simp [hy]
  | cons x xs ih =>
    cases hx : p x with
    | false => simp [hx]
    | true =>
      simp only [List.cons_append, List.takeWhile_cons, List.dropWhile_cons, hx, if_true] at h ⊢
      obtain ⟨htake, hdrop⟩ := ih h
      exact ⟨congrArg (x :: ·) htake, hdrop⟩

/-- A run that takes up a list takes in one more element. -/
theorem run_extend {α : Type} (p : α → Bool) {xs : List α} {y : α} (hxs : xs.dropWhile p = [])
    (hy : p y = true) :
    (xs ++ [y]).takeWhile p = xs.takeWhile p ++ [y] ∧ (xs ++ [y]).dropWhile p = [] := by
  induction xs with
  | nil => simp [hy]
  | cons x xs ih =>
    cases hx : p x with
    | false => simp [hx] at hxs
    | true =>
      simp only [List.cons_append, List.takeWhile_cons, List.dropWhile_cons, hx, if_true] at hxs ⊢
      obtain ⟨htake, hdrop⟩ := ih hxs
      exact ⟨congrArg (x :: ·) htake, hdrop⟩

/-- A string that ends ends at the same place if more follows. -/
theorem string_closed (more : List Char) {rest : List Char}
    (h : ∀ chars, (string rest).1 ≠ .openString chars) :
    string (rest ++ more) = ((string rest).1, (string rest).2 ++ more) := by
  unfold string at h ⊢
  cases hdrop : rest.dropWhile (· != '"') with
  | nil =>
    rw [hdrop] at h
    exact absurd rfl (h _)
  | cons quote tail =>
    obtain ⟨htake, hdrop'⟩ := run_append (· != '"') rest more (.inl (by simp [hdrop]))
    rw [htake, hdrop', hdrop]
    rfl

/-- A block comment that ends ends at the same place if more follows. -/
theorem splitComment_closed (more passed : List Char) {cs : List Char} (h : ['*', '/'] <:+: cs) :
    splitComment passed (cs ++ more) =
      ((splitComment passed cs).1, (splitComment passed cs).2 ++ more) := by
  fun_induction splitComment passed cs with
  | case1 passed => simp at h
  | case2 passed rest => rfl
  | case3 passed c rest hnot ih =>
    have hrest : ['*', '/'] <:+: rest := by
      rcases List.infix_cons_iff.1 h with ⟨tail, htail⟩ | h
      · obtain ⟨rfl, rfl⟩ := List.cons.inj htail
        exact absurd rfl (hnot tail rfl)
      · exact h
    rw [List.cons_append, splitComment.eq_3]
    · exact ih hrest
    · intro tail hc htail
      cases rest with
      | nil => simp at hrest
      | cons d rest =>
        obtain ⟨rfl, -⟩ := List.cons.inj htail
        exact hnot rest hc rfl

/-- A block comment without an end takes in what follows, unless that ends it. -/
theorem splitComment_open {sep : Char} (hsep : sep ≠ '/') (passed : List Char) {cs : List Char}
    (h : ¬ ['*', '/'] <:+: cs) :
    splitComment passed (cs ++ [sep]) = (passed.reverse ++ cs ++ [sep], []) := by
  fun_induction splitComment passed cs with
  | case1 passed => simp [splitComment]
  | case2 passed rest => exact absurd (List.prefix_append ['*', '/'] rest).isInfix h
  | case3 passed c rest hnot ih =>
    rw [List.cons_append, splitComment.eq_3]
    · rw [ih fun hrest => h (List.infix_cons_iff.2 (Or.inr hrest))]
      simp
    · intro tail hc htail
      cases rest with
      | nil => exact hsep (List.cons.inj htail).1
      | cons d rest =>
        obtain ⟨rfl, -⟩ := List.cons.inj htail
        exact hnot rest hc rfl

/-- A block comment that ends has its end last. -/
theorem splitComment_of_infix (passed : List Char) {cs : List Char} (h : ['*', '/'] <:+: cs) :
    ∃ text, (splitComment passed cs).1 = passed.reverse ++ (text ++ ['*', '/']) := by
  fun_induction splitComment passed cs with
  | case1 passed => simp at h
  | case2 passed rest => exact ⟨[], by simp⟩
  | case3 passed c rest hnot ih =>
    rcases List.infix_cons_iff.1 h with ⟨tail, htail⟩ | h
    · obtain ⟨rfl, rfl⟩ := List.cons.inj htail
      exact absurd rfl (hnot tail rfl)
    · obtain ⟨text, htext⟩ := ih h
      exact ⟨c :: text, by simp [htext]⟩

theorem splitComment_eq_self (passed : List Char) {cs : List Char} (h : ¬ ['*', '/'] <:+: cs) :
    splitComment passed cs = (passed.reverse ++ cs, []) := by
  fun_induction splitComment passed cs with
  | case1 passed => simp
  | case2 passed rest => exact absurd (List.prefix_append ['*', '/'] rest).isInfix h
  | case3 passed c rest _ ih =>
    rw [ih fun hrest => h (List.infix_cons_iff.2 (Or.inr hrest))]
    simp

/-- A block comment takes in what follows if it has no end. -/
theorem absorbs_splitComment (sep : Char) (cs : List Char) :
    (Piece.comment (splitComment ['*', '/'] cs).1).absorbs sep = true ↔ ¬ ['*', '/'] <:+: cs := by
  by_cases hinfix : ['*', '/'] <:+: cs
  · obtain ⟨text, htext⟩ := splitComment_of_infix ['*', '/'] hinfix
    have hend : ['*', '/'].isSuffixOf (text ++ ['*', '/']) = true :=
      List.isSuffixOf_iff_suffix.2 (List.suffix_append text _)
    rw [htext]
    simp [absorbs, isOpenComment, hend, hinfix]
  · have hend : ['*', '/'].isSuffixOf cs = false := by
      apply eq_false_of_ne_true
      intro hsuffix
      exact hinfix (List.isSuffixOf_iff_suffix.1 hsuffix).isInfix
    rw [splitComment_eq_self _ hinfix]
    simp [absorbs, isOpenComment, hend, hinfix]

/-- The first piece of a text that does not start with a blank, a literal, a name or a comment. -/
def symbolPiece (c : Char) (rest : List Char) : Piece × List Char :=
  match Symbol.all.find? fun s => s.chars.isPrefixOf (c :: rest) with
  | some s => (.token (.symbol s) s.chars, (c :: rest).drop s.chars.length)
  | none => (.refused c, rest)

section Separation
variable {sep : Char} (hsep : Separates sep) (b : List Char)
include hsep

theorem splitNumber_separated (cs : List Char) :
    splitNumber (cs ++ sep :: b) = ((splitNumber cs).1, (splitNumber cs).2 ++ sep :: b) := by
  have hrun (cs : List Char) := run_append Char.isDigit cs (sep :: b) (.inr (by simp [hsep.digit]))
  unfold splitNumber
  rw [(hrun cs).1, (hrun cs).2]
  generalize cs.takeWhile Char.isDigit = whole
  rcases cs.dropWhile Char.isDigit with _ | ⟨point, _ | ⟨d, more⟩⟩
  · simp [hsep.point]
  · by_cases hpoint : point = '.'
    · subst hpoint
      simp [hsep.digit]
    · simp [hpoint]
  · by_cases hpoint : point = '.'
    · subst hpoint
      have hmore := hrun (d :: more)
      simp only [List.cons_append] at hmore ⊢
      rw [hmore.1, hmore.2]
      split <;> rfl
    · simp [hpoint]

omit hsep in
theorem isPrefixOf_separated {word : List Char} (hword : sep ∉ word) (cs : List Char) :
    word.isPrefixOf (cs ++ sep :: b) = word.isPrefixOf cs := by
  induction word generalizing cs with
  | nil => simp
  | cons c word ih =>
    have hc : c ≠ sep := fun heq => hword (heq ▸ List.mem_cons_self)
    have hrest : sep ∉ word := fun hmem => hword (List.mem_cons_of_mem c hmem)
    cases cs with
    | nil => simp [List.isPrefixOf, hc]
    | cons d cs => simp [List.isPrefixOf, ih hrest]

theorem symbolPiece_separated (c : Char) (rest : List Char) :
    symbolPiece c (rest ++ sep :: b) =
      ((symbolPiece c rest).1, (symbolPiece c rest).2 ++ sep :: b) := by
  have hstarts (s : Symbol) : s.chars.isPrefixOf (c :: (rest ++ sep :: b)) =
      s.chars.isPrefixOf (c :: rest) := by
    have htail := hsep.symbol s
    cases hs : s.chars with
    | nil => rfl
    | cons first tail =>
      rw [hs, List.tail_cons] at htail
      simp only [List.isPrefixOf, isPrefixOf_separated b htail]
  unfold symbolPiece
  simp only [hstarts]
  split
  · rename_i s hs
    have hfound := List.find?_some (p := fun t : Symbol => t.chars.isPrefixOf (c :: rest)) hs
    have hlength := (List.isPrefixOf_iff_prefix.1 hfound).length_le
    have hdrop : (c :: rest ++ sep :: b).drop s.chars.length =
        (c :: rest).drop s.chars.length ++ sep :: b := List.drop_append_of_le_length hlength
    rw [List.cons_append] at hdrop
    rw [hdrop]
  · rfl

end Separation

/-- What the first piece of the text `c :: rest` is. -/
inductive Starts (c : Char) (rest : List Char) : Prop where
  | blank (h : ∀ rest, next c rest = (.blank c, rest))
  | string (h : ∀ rest, next c rest = string rest)
  | number (h : ∀ rest, next c rest = (.token (.number (Number.read (splitNumber (c :: rest)).1))
      (splitNumber (c :: rest)).1, (splitNumber (c :: rest)).2))
  | name (h : ∀ rest, next c rest = (.token (nameKind (c :: rest.takeWhile isNameChar))
      (c :: rest.takeWhile isNameChar), rest.dropWhile isNameChar))
  | lineComment (more : List Char) (hc : c = '/') (hrest : rest = '/' :: more)
  | blockComment (more : List Char) (hc : c = '/') (hrest : rest = '*' :: more)
  | symbol (h : next c rest = symbolPiece c rest)
      (h' : ∀ sep b, Separates sep → next c (rest ++ sep :: b) = symbolPiece c (rest ++ sep :: b))

theorem next_lineComment (more : List Char) : next '/' ('/' :: more) =
    (.comment ('/' :: '/' :: more.takeWhile (· != '\n')), more.dropWhile (· != '\n')) := rfl

theorem next_blockComment (more : List Char) : next '/' ('*' :: more) =
    (.comment (splitComment ['*', '/'] more).1, (splitComment ['*', '/'] more).2) := rfl

theorem starts (c : Char) (rest : List Char) : Starts c rest := by
  by_cases hblank : isBlankChar c = true
  · exact .blank fun rest => if_pos hblank
  by_cases hquote : (c == '"') = true
  · exact .string fun rest => by
      unfold next
      rw [if_neg hblank, if_pos hquote]
  by_cases hdigit : c.isDigit = true
  · exact .number fun rest => by
      unfold next
      rw [if_neg hblank, if_neg hquote, if_pos hdigit]
  by_cases hname : isNameStart c = true
  · exact .name fun rest => by
      unfold next
      rw [if_neg hblank, if_neg hquote, if_neg hdigit, if_pos hname]
  have hsymbol (rest : List Char) (hline : ∀ more, c = '/' → rest ≠ '/' :: more)
      (hblock : ∀ more, c = '/' → rest ≠ '*' :: more) : next c rest = symbolPiece c rest := by
    unfold next
    rw [if_neg hblank, if_neg hquote, if_neg hdigit, if_neg hname]
    split
    · exact absurd rfl (hline _ rfl)
    · exact absurd rfl (hblock _ rfl)
    · rfl
  by_cases hline : c = '/' ∧ ∃ more, rest = '/' :: more
  · obtain ⟨hc, more, hrest⟩ := hline
    exact .lineComment more hc hrest
  by_cases hblock : c = '/' ∧ ∃ more, rest = '*' :: more
  · obtain ⟨hc, more, hrest⟩ := hblock
    exact .blockComment more hc hrest
  refine .symbol (hsymbol rest ?_ ?_) fun sep b hsep => hsymbol (rest ++ sep :: b) ?_ ?_
  · exact fun more hc hrest => hline ⟨hc, more, hrest⟩
  · exact fun more hc hrest => hblock ⟨hc, more, hrest⟩
  · intro more hc hrest
    cases rest with
    | nil => exact hsep.comment.1 (List.cons.inj hrest).1
    | cons d rest =>
      obtain ⟨rfl, -⟩ := List.cons.inj hrest
      exact hline ⟨hc, rest, rfl⟩
  · intro more hc hrest
    cases rest with
    | nil => exact hsep.comment.2 (List.cons.inj hrest).1
    | cons d rest =>
      obtain ⟨rfl, -⟩ := List.cons.inj hrest
      exact hblock ⟨hc, rest, rfl⟩

/-- A separator ends the first piece of a text, unless that is open. -/
theorem next_separated {sep c : Char} {rest : List Char} (hsep : Separates sep) (b : List Char)
    (hstring : ∀ chars, (next c rest).1 ≠ .openString chars)
    (hlast : (next c rest).2 = [] → (next c rest).1.absorbs sep = false) :
    next c (rest ++ sep :: b) = ((next c rest).1, (next c rest).2 ++ sep :: b) := by
  cases starts c rest with
  | blank h => rw [h, h]
  | string h =>
    rw [h] at hstring
    rw [h, h, string_closed _ hstring]
  | number h =>
    have hnumber := splitNumber_separated hsep b (c :: rest)
    rw [List.cons_append] at hnumber
    rw [h, h, hnumber]
  | name h =>
    obtain ⟨htake, hdrop⟩ := run_append isNameChar rest (sep :: b) (.inr (by simp [hsep.name]))
    rw [h, h, htake, hdrop]
  | lineComment more hc hrest =>
    subst hc hrest
    rw [next_lineComment] at hlast
    have hends : more.dropWhile (· != '\n') ≠ [] ∨ ∀ y ∈ (sep :: b).head?, (y != '\n') = false := by
      by_cases hmore : more.dropWhile (· != '\n') = []
      · right
        intro y hy
        obtain rfl := Option.some.inj hy
        exact hlast hmore
      · exact Or.inl hmore
    obtain ⟨htake, hdrop⟩ := run_append (· != '\n') more (sep :: b) hends
    rw [List.cons_append, next_lineComment, next_lineComment, htake, hdrop]
  | blockComment more hc hrest =>
    subst hc hrest
    rw [next_blockComment] at hlast
    have hclosed : ['*', '/'] <:+: more := by
      apply Classical.byContradiction
      intro hopen
      have hend : (splitComment ['*', '/'] more).2 = [] := by rw [splitComment_eq_self _ hopen]
      have habsorbs := (absorbs_splitComment sep more).2 hopen
      rw [hlast hend] at habsorbs
      cases habsorbs
    rw [List.cons_append, next_blockComment, next_blockComment, splitComment_closed _ _ hclosed]
  | symbol h h' => rw [h, h' sep b hsep, symbolPiece_separated hsep]

/-- A comment at the end of a text takes in what follows. -/
theorem next_absorbed {sep c : Char} {rest : List Char} (hsep : Separates sep)
    (habsorbs : (next c rest).1.absorbs sep = true) (hlast : (next c rest).2 = []) :
    next c (rest ++ [sep]) = (.comment ((next c rest).1.chars ++ [sep]), []) := by
  cases starts c rest with
  | blank h | number h | name h =>
    rw [h] at habsorbs
    cases habsorbs
  | string h =>
    rw [h, string] at habsorbs
    split at habsorbs <;> cases habsorbs
  | symbol h =>
    rw [h, symbolPiece] at habsorbs
    split at habsorbs <;> cases habsorbs
  | lineComment more hc hrest =>
    subst hc hrest
    rw [next_lineComment] at habsorbs hlast
    obtain ⟨htake, hdrop⟩ := run_extend (· != '\n') hlast habsorbs
    rw [List.cons_append, next_lineComment, next_lineComment, htake, hdrop]
    rfl
  | blockComment more hc hrest =>
    subst hc hrest
    rw [next_blockComment] at habsorbs
    have hopen := (absorbs_splitComment sep more).1 habsorbs
    rw [List.cons_append, next_blockComment, next_blockComment,
      splitComment_open hsep.comment.1 _ hopen, splitComment_eq_self _ hopen]
    rfl

/-! ## All pieces -/

theorem splitFrom_eq (found : List Piece) (cs : List Char) :
    splitFrom found cs = found.reverse ++ split cs := by
  have hmore (before : List Piece) :
      splitFrom (before ++ found) cs = found.reverse ++ splitFrom before cs := by
    fun_induction splitFrom before cs with
    | case1 before => simp [splitFrom]
    | case2 before c rest ih =>
      rw [splitFrom, ← ih]
      rfl
  exact hmore []

theorem split_nil : split [] = [] := by
  rw [split, splitFrom]
  rfl

theorem split_cons (c : Char) (rest : List Char) :
    split (c :: rest) = (next c rest).1 :: split (next c rest).2 := by
  rw [split, splitFrom, splitFrom_eq]
  rfl

section
variable {sep : Char} (hsep : Separates sep)
include hsep

/-- The pieces before a separator and those from it on. -/
theorem split_separated {a : List Char} (b : List Char)
    (hstring : ∀ chars, Piece.openString chars ∉ split a)
    (hlast : ∀ p ∈ (split a).getLast?, p.absorbs sep = false) :
    split (a ++ sep :: b) = split a ++ split (sep :: b) := by
  induction hn : a.length using Nat.strongRecOn generalizing a with
  | _ n ih =>
    subst hn
    cases a with
    | nil =>
      rw [split_nil]
      rfl
    | cons c rest =>
      rw [split_cons] at hstring hlast ⊢
      have hclosed (chars : List Char) : (next c rest).1 ≠ .openString chars :=
        fun heq => hstring chars (by simp [heq])
      have hnext := next_separated hsep b hclosed ?_
      · have hrest := ih _ (length_next_lt c rest)
          (fun chars hmem => hstring chars (List.mem_cons_of_mem _ hmem)) ?_ rfl
        · rw [List.cons_append, split_cons, hnext, hrest]
          rfl
        · intro p hp
          apply hlast
          rw [Option.mem_def] at hp ⊢
          rw [List.getLast?_cons, hp]
          rfl
      · intro hend
        rw [hend, split_nil] at hlast
        exact hlast _ rfl

/-- A comment at the end of a text takes in a separator that follows. -/
theorem split_absorbed {a : List Char} {ps : List Piece} {p : Piece} (hsplit : split a = ps ++ [p])
    (habsorbs : p.absorbs sep = true) (hstring : ∀ chars, Piece.openString chars ∉ split a) :
    split (a ++ [sep]) = ps ++ [.comment (p.chars ++ [sep])] := by
  induction hn : a.length using Nat.strongRecOn generalizing a ps with
  | _ n ih =>
    subst hn
    cases a with
    | nil => simp [split_nil] at hsplit
    | cons c rest =>
      rw [split_cons] at hsplit hstring
      by_cases hend : (next c rest).2 = []
      · rw [hend, split_nil] at hsplit
        have hsingle : [] ++ [_] = ps ++ [_] := hsplit
        obtain ⟨rfl, hp⟩ := List.append_inj' hsingle rfl
        obtain rfl := List.singleton_inj.1 hp
        rw [List.cons_append, split_cons, next_absorbed hsep habsorbs hend, split_nil]
        rfl
      · have hclosed (chars : List Char) : (next c rest).1 ≠ .openString chars :=
          fun heq => hstring chars (by simp [heq])
        have hnext := next_separated hsep [] hclosed fun h => absurd h hend
        cases ps with
        | nil =>
          obtain ⟨-, hrest⟩ := List.cons.inj hsplit
          have hchars := flatMap_chars_split (next c rest).2
          rw [hrest] at hchars
          exact absurd hchars.symm hend
        | cons first ps =>
          obtain ⟨rfl, hrest⟩ := List.cons.inj hsplit
          have hmore := ih _ (length_next_lt c rest) hrest
            (fun chars hmem => hstring chars (List.mem_cons_of_mem _ hmem)) rfl
          rw [List.cons_append, split_cons, hnext, hmore]
          rfl

end

end Piece

end Lox
