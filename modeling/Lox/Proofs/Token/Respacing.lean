import Lox.Proofs.Token.Decomposition

/-!
# Tokens with spaces in between

A space ends every token: no text of a token that is longer starts with the text of another one and
a space, for only strings have blanks in them, and a string has no quote before its last character.
So the texts of the tokens of a source, put together again with spaces in between, are cut where
they were put together.
-/

set_option autoImplicit false

namespace Lox

open Piece

namespace Lexeme
variable {kind kind' : Kind} {text text' more rest : List Char}

/-- No text of a token goes on with a space after the text of a token. -/
theorem not_continued (h : Lexeme kind text) (h' : Lexeme kind' (text ++ ' ' :: more)) : False := by
  have hspace : ' ' ∈ text ++ ' ' :: more := by simp
  have hopening' : kind'.opening = some .string := by
    by_contra hopening
    cases h'.not_blank hopening ' ' hspace
  obtain ⟨c, cs, rfl, hopening⟩ := h.opens
  obtain ⟨c', cs', hcs', hsame⟩ := h'.opens
  obtain ⟨rfl, -⟩ := List.cons.inj hcs'
  -- Both are strings, and the closing quote of the shorter one is inside the longer one.
  obtain ⟨contents, -, -, hcontents⟩ := h.string_of_opening (hopening.trans (hsame ▸ hopening'))
  obtain ⟨contents', hquote, -, hcontents'⟩ := h'.string_of_opening hopening'
  rw [hcontents, List.cons_append, List.cons_append, List.cons_append] at hcontents'
  have hmem : '"' ∈ contents' := by
    have hlast : contents ++ ['"'] ++ (' ' :: more) = contents' ++ ['"'] :=
      (List.cons.inj hcontents').2
    have hcut := congrArg List.dropLast hlast
    rw [List.dropLast_concat, List.dropLast_append_of_ne_nil (by simp)] at hcut
    rw [← hcut]
    simp
  exact hquote hmem

/-- The text of a token starts no longer one if a space or nothing follows it. -/
theorem length_le_of_spaced (h : Lexeme kind text) (hrest : ∀ c ∈ rest.head?, c = ' ')
    (h' : Lexeme kind' text') (hpart : text' <+: text ++ rest) : text'.length ≤ text.length := by
  by_contra hlonger
  have hle : text.length ≤ text'.length := Nat.le_of_not_le hlonger
  obtain ⟨more, rfl⟩ := List.prefix_of_prefix_length_le (List.prefix_append text rest) hpart hle
  have hmore : more <+: rest := (List.prefix_append_right_inj text).1 hpart
  cases more with
  | nil => simp at hlonger
  | cons c more =>
    obtain ⟨after, rfl⟩ := hmore
    obtain rfl := hrest c rfl
    exact h.not_continued h'

/-- No comment starts with the text of a token if a space or nothing follows it. -/
theorem not_startsComment_of_spaced (h : Lexeme kind text) (hrest : ∀ c ∈ rest.head?, c = ' ') :
    ¬ StartsComment (text ++ rest) := by
  have hsecond {d : Char} (hd : d ≠ ' ') (hstarts : ['/', d] <+: text ++ rest)
      (hsymbol : ∀ s : Symbol, ¬ ['/', d] <+: s.chars) : False := by
    obtain ⟨c, cs, rfl, hopening⟩ := h.opens
    obtain ⟨rfl, htail⟩ := List.cons_prefix_cons.1 hstarts
    obtain ⟨s, -, hs⟩ := h.symbol_of_opening hopening
    cases cs with
    | nil =>
      obtain ⟨more, rfl⟩ := htail
      exact hd (hrest d rfl)
    | cons c cs =>
      obtain ⟨rfl, -⟩ := List.cons_prefix_cons.1 htail
      exact hsymbol s (hs ▸ ⟨cs, rfl⟩)
  rintro (hstarts | hstarts)
  · exact hsecond (by decide) hstarts (by rintro ⟨⟩ <;> decide)
  · exact hsecond (by decide) hstarts (by rintro ⟨⟩ <;> decide)

theorem wellCut_of_spaced (h : Lexeme kind text) (hrest : ∀ c ∈ rest.head?, c = ' ') :
    WellCut (.token kind text) rest :=
  .token h (h.not_startsComment_of_spaced hrest) fun _ _ h' => h.length_le_of_spaced hrest h'

end Lexeme

namespace Piece

/-- Tokens with spaces in between. -/
def spaced : List (Kind × List Char) → List Piece
  | [] => []
  | [(kind, text)] => [.token kind text]
  | (kind, text) :: more => .token kind text :: .blank ' ' :: spaced more

theorem chars_spaced (words : List (Kind × List Char)) :
    (spaced words).flatMap chars = [' '].intercalate (words.map Prod.snd) := by
  fun_induction spaced words with
  | case1 => rfl
  | case2 kind text => rfl
  | case3 kind text more hmore ih =>
    obtain ⟨word, more, rfl⟩ := List.exists_cons_of_ne_nil hmore
    rw [List.map_cons, List.map_cons, List.intercalate_cons_cons, List.append_assoc]
    exact congrArg (text ++ ' ' :: ·) ih

theorem spaced_wellCut {words : List (Kind × List Char)}
    (h : ∀ word ∈ words, Lexeme word.1 word.2) : AllWellCut (spaced words) := by
  fun_induction spaced words with
  | case1 => exact .nil
  | case2 kind text =>
    have hlexeme : Lexeme kind text := h (kind, text) List.mem_cons_self
    refine .cons (hlexeme.wellCut_of_spaced ?_) .nil
    intro c hc
    cases hc
  | case3 kind text more hmore ih =>
    have hlexeme : Lexeme kind text := h (kind, text) List.mem_cons_self
    have hspace : WellCut (.blank ' ') ((spaced more).flatMap chars) := .blank (by simp)
    refine .cons (hlexeme.wellCut_of_spaced ?_) (.cons hspace (ih ?_))
    · intro c hc
      exact (Option.some.inj hc).symm
    · intro word hword
      exact h word (List.mem_cons_of_mem _ hword)

/-- The kind and the text of a token. -/
def word? : Piece → Option (Kind × List Char)
  | .token kind text => some (kind, text)
  | _ => none

theorem filterMap_spaced (words : List (Kind × List Char)) :
    (spaced words).filterMap word? = words := by
  fun_induction spaced words with
  | case1 => rfl
  | case2 kind text => rfl
  | case3 kind text more hmore ih => exact congrArg ((kind, text) :: ·) ih

theorem WellCut.lexeme {p : Piece} {rest : List Char} {word : Kind × List Char} (h : WellCut p rest)
    (hword : p.word? = some word) : Lexeme word.1 word.2 := by
  cases h with
  | token hlexeme =>
    obtain rfl := Option.some.inj hword
    exact hlexeme
  | _ => cases hword

theorem AllWellCut.lexeme {ps : List Piece} (h : AllWellCut ps) :
    ∀ word ∈ ps.filterMap word?, Lexeme word.1 word.2 := by
  intro word hmem
  obtain ⟨p, hp, hword⟩ := List.mem_filterMap.1 hmem
  clear hmem
  induction h with
  | nil => cases hp
  | cons hcut _ ih =>
    rcases List.mem_cons.1 hp with rfl | hp
    · exact hcut.lexeme hword
    · exact ih hp

theorem words_items (line : Nat) (ps : List Piece) :
    ((items line ps).filterMap Item.token?).map (fun t => (t.kind, t.lexeme)) =
      (ps.filterMap word?).map fun word => (word.1, String.ofList word.2) := by
  induction ps generalizing line with
  | nil => rfl
  | cons p ps ih =>
    rw [items, List.filterMap_append, List.map_append, ih]
    cases p <;> rfl

theorem errors_spaced (line : Nat) (words : List (Kind × List Char)) :
    (items line (spaced words)).filterMap Item.error? = [] := by
  fun_induction spaced words generalizing line with
  | case1 => rfl
  | case2 kind text => rfl
  | case3 kind text more hmore ih => exact ih _

end Piece

/-- The kinds and texts of the tokens of a source but the end. -/
def words (source : String) : List (Kind × String) :=
  ((tokens source).filter fun t => t.kind ≠ .eof).map fun t => (t.kind, t.lexeme)

/-- The texts of the tokens of a source with spaces in between. -/
def respaced (source : String) : String :=
  " ".intercalate ((words source).map Prod.snd)

theorem tokens_eq (source : String) :
    tokens source = (items 1 (split source.toList)).filterMap Item.token? ++
      [⟨.eof, "", 1 + source.toList.count '\n'⟩] := by
  rw [tokens, scan_eq, List.filterMap_append]
  rfl

theorem words_eq (source : String) :
    words source = ((split source.toList).filterMap word?).map fun word =>
      (word.1, String.ofList word.2) := by
  have hkinds : ((items 1 (split source.toList)).filterMap Item.token?).filter
      (fun t => t.kind ≠ .eof) = (items 1 (split source.toList)).filterMap Item.token? := by
    rw [List.filter_eq_self]
    intro t ht
    obtain ⟨item, hitem, ht⟩ := List.mem_filterMap.1 ht
    cases item with
    | token t' =>
      obtain rfl := Option.some.inj ht
      exact decide_eq_true ((split_wellCut source.toList).kind_ne_eof hitem)
    | error => cases ht
  rw [words, tokens_eq, List.filter_append, hkinds]
  exact (congrArg _ (List.append_nil _)).trans (words_items 1 _)

theorem split_respaced (source : String) :
    split (respaced source).toList = spaced ((split source.toList).filterMap word?) := by
  have hcut := spaced_wellCut (split_wellCut source.toList).lexeme
  rw [← hcut.split_eq, chars_spaced, respaced, String.toList_intercalate, words_eq, List.map_map,
    List.map_map]
  congr 2
  exact List.map_congr_left fun word _ => String.toList_ofList

/-- The texts of its tokens, with spaces in between and nothing else, have the same tokens as a
source, whatever else there is in the source. -/
theorem respaced_tokens_same (source : String) :
    lexErrors (respaced source) = [] ∧
      (tokens (respaced source)).map (fun t => (t.kind, t.lexeme)) =
        words source ++ [(.eof, "")] := by
  constructor
  · rw [lexErrors, scan_eq, split_respaced, List.filterMap_append, errors_spaced]
    rfl
  · rw [tokens_eq, List.map_append, words_items, split_respaced, filterMap_spaced, ← words_eq]
    rfl

end Lox
