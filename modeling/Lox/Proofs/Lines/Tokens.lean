import Lox.Proofs.Token.Pieces

/-!
# Texts one after the other

A line break ends every piece of a text but an open string and an open block comment. So if the
first of two texts has neither, the pieces of the two with a line break in between are the pieces
of the one and then those of the other, and only the lines of the second are others.
-/

set_option autoImplicit false

namespace Lox

namespace Piece

theorem split_newline {a : List Char} (b : List Char)
    (hstring : ∀ chars, Piece.openString chars ∉ split a)
    (hcomment : ∀ p ∈ (split a).getLast?, p.isOpenComment = false) :
    split (a ++ '\n' :: b) = split a ++ .blank '\n' :: split b := by
  have hblank : split ('\n' :: b) = .blank '\n' :: split b := split_cons '\n' b
  rw [← hblank]
  apply split_separated separates_newline b hstring
  intro p hp
  rw [absorbs_newline]
  exact hcomment p hp

/-! ## Items and their lines -/

/-- The items of pieces that start on the given line, without the end of the text. -/
def items (line : Nat) : List Piece → List Item
  | [] => []
  | p :: ps => (p.item? line).toList ++ items (line + p.newlines) ps

/-- The line after pieces that start on the given line. -/
def lineAfter (line : Nat) (ps : List Piece) : Nat :=
  line + (ps.flatMap chars).count '\n'

theorem lineAfter_cons (line : Nat) (p : Piece) (ps : List Piece) :
    lineAfter line (p :: ps) = lineAfter (line + p.newlines) ps := by
  simp [lineAfter, newlines, List.count_append, Nat.add_assoc]

theorem itemsFrom_eq (found : List Item) (line : Nat) (ps : List Piece) :
    itemsFrom found line ps =
      found.reverse ++ items line ps ++ [.token ⟨.eof, "", lineAfter line ps⟩] := by
  induction ps generalizing found line with
  | nil => simp [itemsFrom, items, lineAfter]
  | cons p ps ih =>
    have hitem : (p.item? line).toList.reverse = (p.item? line).toList := by
      cases p.item? line <;> rfl
    rw [itemsFrom, ih, lineAfter_cons, List.reverse_append, hitem]
    simp [items]

theorem items_append (line : Nat) (ps qs : List Piece) :
    items line (ps ++ qs) = items line ps ++ items (lineAfter line ps) qs := by
  induction ps generalizing line with
  | nil => rfl
  | cons p ps ih => rw [List.cons_append, items, ih, items, lineAfter_cons, List.append_assoc]

end Piece

def Token.mapLine (f : Nat → Nat) (t : Token) : Token :=
  ⟨t.kind, t.lexeme, f t.line⟩

theorem Token.mapLine_id : mapLine id = id := rfl

def LexError.mapLine (f : Nat → Nat) (e : LexError) : LexError :=
  ⟨f e.line, e.fault⟩

def Item.mapLine (f : Nat → Nat) : Item → Item
  | .token t => .token (t.mapLine f)
  | .error e => .error (e.mapLine f)

namespace Item
variable (f : Nat → Nat) (items : List Item)

theorem filterMap_token?_mapLine :
    (items.map (mapLine f)).filterMap token? = (items.filterMap token?).map (Token.mapLine f) := by
  rw [List.filterMap_map, List.map_filterMap]
  congr 1
  funext item
  cases item <;> rfl

theorem filterMap_error?_mapLine :
    (items.map (mapLine f)).filterMap error? =
      (items.filterMap error?).map (LexError.mapLine f) := by
  rw [List.filterMap_map, List.map_filterMap]
  congr 1
  funext item
  cases item <;> rfl

end Item

open Piece

theorem items_shift (line k : Nat) (ps : List Piece) :
    items (line + k) ps = (items line ps).map (Item.mapLine (· + k)) := by
  induction ps generalizing line with
  | nil => rfl
  | cons p ps ih =>
    have hitem : (p.item? (line + k)).toList =
        (p.item? line).toList.map (Item.mapLine (· + k)) := by
      cases p with
      | token kind chars => simp [item?, Item.mapLine, Token.mapLine, Nat.add_right_comm]
      | _ => rfl
    have hline : line + k + p.newlines = line + p.newlines + k := by omega
    rw [items, items, hline, ih, hitem, List.map_append]

theorem scan_eq (source : String) :
    scan source = items 1 (split source.toList) ++
      [.token ⟨.eof, "", 1 + source.toList.count '\n'⟩] := by
  rw [scan, itemsFrom_eq, lineAfter, flatMap_chars_split]
  rfl

/-- The text ends inside a block comment whose end is missing. -/
def endsInComment (source : String) : Bool :=
  (split source.toList).getLast?.any isOpenComment

/-- By how many lines a text is moved that follows another one and a line break. -/
def linesBefore (source : String) : Nat :=
  1 + source.toList.count '\n'

/-- Every piece yields its items on some line. -/
theorem mem_items {p : Piece} {ps : List Piece} (h : p ∈ ps) (line : Nat) :
    ∃ line', ∀ item ∈ p.item? line', item ∈ items line ps := by
  induction ps generalizing line with
  | nil => cases h
  | cons p' ps ih =>
    rcases List.mem_cons.1 h with rfl | h
    · refine ⟨line, fun item hitem => List.mem_append_left _ ?_⟩
      rw [hitem]
      exact List.mem_singleton_self item
    · obtain ⟨line', hline⟩ := ih h (line + p'.newlines)
      exact ⟨line', fun item hitem => List.mem_append_right _ (hline item hitem)⟩

theorem openString_not_mem {source : String} (h : lexErrors source = []) (chars : List Char) :
    Piece.openString chars ∉ split source.toList := by
  intro hmem
  obtain ⟨line, hline⟩ := mem_items hmem 1
  have herror : (⟨line, .unterminatedString⟩ : LexError) ∈ lexErrors source := by
    rw [lexErrors, scan_eq]
    exact List.mem_filterMap.2 ⟨_, List.mem_append_left _ (hline _ rfl), rfl⟩
  rw [h] at herror
  cases herror

section Newline
variable {a : String} (b : String) (hquiet : lexErrors a = []) (hcomment : endsInComment a = false)
include hquiet hcomment

theorem scan_newline :
    scan (a ++ "\n" ++ b) =
      items 1 (split a.toList) ++ (scan b).map (Item.mapLine (· + linesBefore a)) := by
  have htext : (a ++ "\n" ++ b).toList = a.toList ++ '\n' :: b.toList := by simp
  have hpieces : split (a.toList ++ '\n' :: b.toList) =
      split a.toList ++ .blank '\n' :: split b.toList := by
    apply split_newline b.toList (openString_not_mem hquiet)
    intro p hp
    rw [Option.mem_def] at hp
    simpa [endsInComment, hp] using hcomment
  have hafter : lineAfter 1 (split a.toList) = linesBefore a := by
    rw [lineAfter, flatMap_chars_split, linesBefore]
  have hblank : items (linesBefore a) (.blank '\n' :: split b.toList) =
      items (1 + linesBefore a) (split b.toList) := by
    rw [Nat.add_comm 1]
    rfl
  have hend : 1 + (a.toList ++ '\n' :: b.toList).count '\n' =
      1 + b.toList.count '\n' + linesBefore a := by
    rw [List.count_append, List.count_cons_self, linesBefore]
    omega
  rw [scan_eq, htext, hpieces, items_append, hafter, hblank, items_shift, hend, scan_eq b,
    List.map_append, List.append_assoc]
  rfl

/-- The tokens of a text after another one are moved, and take the place of the other one's end. -/
theorem tokens_newline :
    ∃ ts eof, tokens a = ts ++ [eof] ∧
      tokens (a ++ "\n" ++ b) = ts ++ (tokens b).map (Token.mapLine (· + linesBefore a)) := by
  refine ⟨(items 1 (split a.toList)).filterMap Item.token?, ⟨.eof, "", linesBefore a⟩, ?_, ?_⟩
  · rw [tokens, scan_eq, List.filterMap_append]
    rfl
  · rw [tokens, scan_newline b hquiet hcomment, List.filterMap_append,
      Item.filterMap_token?_mapLine, tokens]

theorem lexErrors_newline :
    lexErrors (a ++ "\n" ++ b) = (lexErrors b).map (LexError.mapLine (· + linesBefore a)) := by
  have hfirst : (items 1 (split a.toList)).filterMap Item.error? = [] := by
    rw [lexErrors, scan_eq, List.filterMap_append] at hquiet
    exact (List.append_eq_nil_iff.1 hquiet).1
  rw [lexErrors, scan_newline b hquiet hcomment, List.filterMap_append, hfirst,
    Item.filterMap_error?_mapLine, lexErrors]
  rfl

end Newline

end Lox
