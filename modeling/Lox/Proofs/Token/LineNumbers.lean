import Lox.Proofs.Token.Decomposition

/-!
# Line numbers

Lines are counted in blanks, in strings and in block comments, each in its own way, and a line
comment leaves its line break to be counted as a blank. Throughout, the line of the cursor is one
more than the number of line breaks that it has passed. So each item carries the line of a definite
byte: a token that of its end, an error that of its start.
-/

set_option autoImplicit false

namespace Lox

open Piece

/-- The line on which the byte with the index stands. -/
def lineAt (source : String) (i : Nat) : Nat :=
  1 + ((bytesOf source).take i).count '\n'.toUInt8

/-- The item has its text from one index to another, and the line that belongs to it. -/
inductive Item.Placed (source : String) (start stop : Nat) : Item → Prop where
  | token {kind : Kind} {lexeme : String} (hkind : kind ≠ .eof)
      (htext : ((bytesOf source).take stop).drop start = bytesOf lexeme) :
      Placed source start stop (.token ⟨kind, lexeme, lineAt source stop⟩)
  | ending (hstop : (bytesOf source).length < stop) :
      Placed source start stop (.token ⟨.eof, "", 1 + (bytesOf source).count '\n'.toUInt8⟩)
  | refused {c : Char} (htext : ((bytesOf source).take stop).drop start = utf8 [c]) :
      Placed source start stop (.error ⟨lineAt source start, .unexpectedCharacter c⟩)
  /-- The string has no other quote, and goes on to the end. -/
  | openString {contents : List UInt8} (hcontents : '"'.toUInt8 ∉ contents)
      (htext : (bytesOf source).drop start = '"'.toUInt8 :: contents)
      (hstop : stop = (bytesOf source).length) :
      Placed source start stop (.error ⟨lineAt source start, .unterminatedString⟩)

section Slices
variable {text : String} {before middle rest : List Char}

theorem lineAt_utf8 (h : text.toList = before ++ rest) :
    lineAt text (utf8 before).length = 1 + before.count '\n' := by
  rw [lineAt, bytesOf_eq, h, utf8_append, List.take_left, count_utf8 (by decide)]

theorem lineAt_of_length_le {i : Nat} (h : (bytesOf text).length ≤ i) :
    lineAt text i = 1 + (bytesOf text).count '\n'.toUInt8 := by
  rw [lineAt, List.take_of_length_le h]

theorem slice_utf8 (h : text.toList = before ++ middle ++ rest) :
    ((bytesOf text).take (utf8 (before ++ middle)).length).drop (utf8 before).length =
      utf8 middle := by
  rw [bytesOf_eq, h, utf8_append (before ++ middle), List.take_left, utf8_append, List.drop_left]

end Slices

namespace Cursor
variable {text : String} {turns : Nat}

/-- The cursor stands between two characters or is past the end, and knows its line. -/
inductive Exact (text : String) (k : Cursor) : Prop where
  | inside {before cs : List Char} (htext : text.toList = before ++ cs)
      (hcurr : k.curr = (utf8 before).length) (hline : k.line = 1 + before.count '\n')
  | done (hcurr : (bytesOf text).length < k.curr)
      (hline : k.line = 1 + (bytesOf text).count '\n'.toUInt8)

theorem Exact.line_eq {k : Cursor} (h : Exact text k) : k.line = lineAt text k.curr := by
  cases h with
  | inside htext hcurr hline => rw [hline, hcurr, lineAt_utf8 htext]
  | done hcurr hline => rw [hline, lineAt_of_length_le (Nat.le_of_lt hcurr)]

/-- Past a piece that it has counted the line breaks of, the cursor knows its line. -/
theorem exact_within {before chars rest : List Char} {line : Nat} {pending : Option Kind}
    (htext : text.toList = before ++ chars ++ rest) (hline : line = 1 + before.count '\n') :
    Exact text (within before chars (line + chars.count '\n') pending) := by
  refine .inside htext (within_curr _ _ _ _) ?_
  change line + chars.count '\n' = _
  rw [hline, List.count_append, Nat.add_assoc]

/-- What a piece yields is in its place if the line of its start is known. -/
theorem placed_of_wellCut {before rest : List Char} {line : Nat} {p : Piece} {item : Item}
    (hcut : WellCut p rest) (htext : text.toList = before ++ p.chars ++ rest)
    (hline : line = 1 + before.count '\n') (hitem : p.item? line = some item) :
    item.Placed text (utf8 before).length (utf8 (before ++ p.chars)).length := by
  have hstart : line = lineAt text (utf8 before).length := by
    rw [hline, lineAt_utf8 (htext.trans (List.append_assoc _ _ _))]
  have hslice := slice_utf8 htext
  cases hcut with
  | blank | lineComment | blockComment | openComment => cases hitem
  | @token kind chars _ hlexeme =>
    have hstop : line + chars.count '\n' = lineAt text (utf8 (before ++ chars)).length := by
      rw [lineAt_utf8 (show text.toList = before ++ chars ++ rest from htext), hline,
        List.count_append, Nat.add_assoc]
    obtain rfl := Option.some.inj hitem
    rw [hstop]
    refine .token ?_ ?_
    · rintro rfl
      cases hlexeme
    · rw [bytesOf_eq (String.ofList chars), String.toList_ofList]
      exact hslice
  | refused =>
    obtain rfl := Option.some.inj hitem
    rw [hstart]
    exact .refused hslice
  | @openString contents hopen =>
    obtain rfl := Option.some.inj hitem
    rw [hstart]
    have hcount : (utf8 contents).count '"'.toUInt8 = 0 := by
      rw [count_utf8 (by decide), List.count_eq_zero]
      exact hopen
    refine .openString (List.count_eq_zero.1 hcount) ?_ ?_
    · rw [bytesOf_eq, htext, List.append_nil, utf8_append, List.drop_left]
      rfl
    · rw [bytesOf_eq, htext, List.append_nil]

/-- A request keeps the line exact, and what it yields is in its place. -/
theorem Exact.nextItem (hturns : (bytesOf text).length < turns) {k k' : Cursor} {left : Nat}
    {found : Option Item} (h : Exact text k) (hrun : nextItem text turns left k = .ok (found, k')) :
    Exact text k' ∧ ∀ item ∈ found, item.Placed text k'.start k'.curr := by
  induction left generalizing k with
  | zero => cases hrun
  | succ left ih =>
    cases h with
    | done hcurr hline =>
      rw [nextItem_done hcurr] at hrun
      cases hrun
      refine ⟨.done hcurr hline, ?_⟩
      intro item hitem
      cases hitem
    | @inside before cs htext hcurr hline =>
      have hlength := length_bytesOf htext
      cases cs with
      | nil =>
        have hend : k.curr = (bytesOf text).length := by
          rw [hlength, hcurr]
          rfl
        have htotal : k.line = 1 + (bytesOf text).count '\n'.toUInt8 := by
          rw [hline, bytesOf_eq, htext, List.append_nil, count_utf8 (by decide)]
        have hpast : (bytesOf text).length < k.curr + 1 := hend ▸ Nat.lt_succ_self _
        rw [nextItem_end hend] at hrun
        cases hrun
        refine ⟨.done hpast htotal, ?_⟩
        intro item hitem
        obtain rfl := Option.some.inj hitem
        rw [htotal]
        exact .ending hpast
      | cons c rest =>
        have hafter : text.toList = before ++ (next c rest).1.chars ++ (next c rest).2 := by
          rw [htext, List.append_assoc, next_append]
        have hexact (pending : Option Kind) : Exact text (within before (next c rest).1.chars
            (k.line + (next c rest).1.newlines) pending) := exact_within hafter hline
        rw [nextItem_piece hturns htext hcurr] at hrun
        -- A piece without an item is passed over; the others end the request.
        cases hitem : (next c rest).1.item? k.line with
        | none =>
          rw [hitem] at hrun
          exact ih (hexact none) hrun
        | some item =>
          have hplaced := placed_of_wellCut (next_wellCut c rest) hafter hline hitem
          rw [hitem] at hrun
          have hyields {k₁ : Cursor} (hk₁ : Exact text k₁)
              (hstart : k₁.start = (utf8 before).length)
              (hstop : k₁.curr = (utf8 (before ++ (next c rest).1.chars)).length)
              (heq : Except.ok (some item, k₁) = (.ok (found, k') : Except Breakdown _)) :
              Exact text k' ∧ ∀ item ∈ found, item.Placed text k'.start k'.curr := by
            cases heq
            refine ⟨hk₁, ?_⟩
            intro item hitem
            obtain rfl := Option.some.inj hitem
            rw [hstart, hstop]
            exact hplaced
          cases item with
          | token t => exact hyields (hexact none) rfl rfl hrun
          | error e => exact hyields (hexact _) rfl rfl hrun

theorem exists_of_bind_ok {α β : Type} {act : CursorM α} {f : α → CursorM β} {k : Cursor}
    {r : β × Cursor} (h : (act >>= f) k = .ok r) :
    ∃ a k', act k = .ok (a, k') ∧ f a k' = .ok r := by
  have hbind : (act >>= f) k = act k >>= fun r => f r.1 r.2 := rfl
  rw [hbind] at h
  cases hact : act k with
  | error b =>
    rw [hact] at h
    cases h
  | ok first =>
    rw [hact] at h
    exact ⟨first.1, first.2, rfl, h⟩

/-- After any number of requests the line is exact, and the last item is in its place. -/
theorem Exact.requests (hturns : (bytesOf text).length < turns) {n : Nat} {k k' : Cursor}
    {found : List (Option Item)} {last : Option Item} (h : Exact text k)
    (hrun : requests text turns n k = .ok (found ++ [last], k')) :
    Exact text k' ∧ ∀ item ∈ last, item.Placed text k'.start k'.curr := by
  induction n generalizing k found with
  | zero =>
    have hnil := congrArg Prod.fst (Except.ok.inj hrun)
    simp at hnil
  | succ n ih =>
    obtain ⟨first, k₁, hfirst, hrest⟩ := exists_of_bind_ok hrun
    obtain ⟨more, k₂, hmore, hpure⟩ := exists_of_bind_ok hrest
    obtain ⟨hlist, rfl⟩ := Prod.mk.inj (Except.ok.inj hpure)
    cases found with
    | nil =>
      obtain ⟨rfl, rfl⟩ := List.cons.inj hlist
      cases n with
      | zero =>
        cases hmore
        exact h.nextItem hturns hfirst
      | succ n =>
        obtain ⟨_, _, _, hrest⟩ := exists_of_bind_ok hmore
        obtain ⟨_, _, _, hpure⟩ := exists_of_bind_ok hrest
        cases hpure
    | cons head found =>
      obtain ⟨rfl, rfl⟩ := List.cons.inj hlist
      exact ih (h.nextItem hturns hfirst).1 hmore

end Cursor

def Item.line : Item → Nat
  | .token t => t.line
  | .error e => e.line

namespace Piece

theorem line_of_item? {p : Piece} {line : Nat} {item : Item} (h : p.item? line = some item) :
    line ≤ item.line ∧ item.line ≤ line + p.newlines := by
  cases p with
  | blank | comment => cases h
  | token kind chars =>
    obtain rfl := Option.some.inj h
    exact ⟨Nat.le_add_right _ _, Nat.le_refl _⟩
  | refused | openString =>
    obtain rfl := Option.some.inj h
    exact ⟨Nat.le_refl _, Nat.le_add_right _ _⟩

/-- No item is on a line before the one that the pieces start on or before that of another item
that precedes it. -/
theorem lines_sorted (line : Nat) (ps : List Piece) :
    (items line ps ++ [Item.token ⟨.eof, "", lineAfter line ps⟩]).Pairwise
        (fun a b => a.line ≤ b.line) ∧
      ∀ item ∈ items line ps ++ [Item.token ⟨.eof, "", lineAfter line ps⟩], line ≤ item.line := by
  induction ps generalizing line with
  | nil => simp [items, lineAfter, Item.line]
  | cons p ps ih =>
    obtain ⟨hsorted, hfrom⟩ := ih (line + p.newlines)
    rw [← lineAfter_cons] at hsorted hfrom
    have hlater {item : Item} (hitem : item ∈ items (line + p.newlines) ps ++
        [Item.token ⟨.eof, "", lineAfter line (p :: ps)⟩]) : line + p.newlines ≤ item.line :=
      hfrom item hitem
    rw [items, List.append_assoc]
    cases hitem : p.item? line with
    | none => exact ⟨hsorted, fun item h => (Nat.le_add_right _ _).trans (hlater h)⟩
    | some first =>
      obtain ⟨hfirst, hbound⟩ := line_of_item? hitem
      refine ⟨List.pairwise_cons.2 ⟨?_, hsorted⟩, ?_⟩
      · intro item h
        exact hbound.trans (hlater h)
      · intro item h
        rcases List.mem_cons.1 h with rfl | h
        · exact hfirst
        · exact (Nat.le_add_right _ _).trans (hlater h)

end Piece

theorem scan_lines_sorted (source : String) :
    (scan source).Pairwise fun a b => a.line ≤ b.line := by
  rw [scan, itemsFrom_eq]
  exact (lines_sorted 1 (split source.toList)).1

/-- Whatever part of the items is taken, their lines do not decrease. -/
theorem lines_sorted_of_part {α : Type} {part : Item → Option α} {line : α → Nat}
    (h : ∀ item a, part item = some a → item.line = line a) (source : String) :
    (((scan source).filterMap part).map line).Pairwise (· ≤ ·) := by
  refine List.pairwise_map.2 ((scan_lines_sorted source).filterMap _ ?_)
  intro first second hle a ha b hb
  rwa [h first a ha, h second b hb] at hle

/-- Whenever the cursor hands out an item, its line is the one that its index is on; a token has
the line of its end, even if it is a string over several lines or the end of the text, and an error
that of its first character. -/
theorem line_numbers_exact (source : String) :
    (∀ turns, (bytesOf source).length < turns → ∀ n item, (scan source)[n]? = some item →
      ∃ found k, Cursor.requests source turns (n + 1) .initial = .ok (found ++ [some item], k) ∧
        k.line = lineAt source k.curr ∧ item.Placed source k.start k.curr) ∧
    (∃ before, scan source =
      before ++ [.token ⟨.eof, "", 1 + (bytesOf source).count '\n'.toUInt8⟩]) ∧
    ((tokens source).map Token.line).Pairwise (· ≤ ·) ∧
    ((lexErrors source).map LexError.line).Pairwise (· ≤ ·) := by
  refine ⟨?_, ?_, ?_, ?_⟩
  · intro turns hturns n item hitem
    have hawaits : Cursor.Awaits source .initial (scan source) := by
      rw [scan_eq_upcoming]
      exact .inside (List.nil_append _).symm rfl
    obtain ⟨k, hrun⟩ := Cursor.requests_eq hturns (n + 1) hawaits
    rw [List.range_succ, List.map_append, List.map_singleton, hitem] at hrun
    have hexact : Cursor.Exact source .initial := .inside (List.nil_append _).symm rfl rfl
    obtain ⟨hexact, hplaced⟩ := hexact.requests hturns hrun
    exact ⟨_, k, hrun, hexact.line_eq, hplaced item rfl⟩
  · rw [scan_eq, bytesOf_eq, count_utf8 (by decide)]
    exact ⟨_, rfl⟩
  · apply lines_sorted_of_part
    intro item t h
    cases item with
    | token => exact congrArg Token.line (Option.some.inj h)
    | error => cases h
  · apply lines_sorted_of_part
    intro item e h
    cases item with
    | token => cases h
    | error => exact congrArg LexError.line (Option.some.inj h)

/-- A string over two lines after a comment over two lines, and one whose end is missing. -/
theorem line_numbers_exact_strings :
    scan "/*\n*/\"a\nb\"@//c\n\"d\n" =
      [.token ⟨.string "a\nb", "\"a\nb\"", 3⟩, .error ⟨3, .unexpectedCharacter '@'⟩,
        .error ⟨4, .unterminatedString⟩, .token ⟨.eof, "", 5⟩] ∧
    (bytesOf "/*\n*/\"a\nb\"@//c\n\"d\n").length < 20 ∧
    ∃ found k, Cursor.requests "/*\n*/\"a\nb\"@//c\n\"d\n" 20 3 .initial =
        .ok (found ++ [some (.error ⟨4, .unterminatedString⟩)], k) ∧
      k.line = lineAt "/*\n*/\"a\nb\"@//c\n\"d\n" k.curr ∧
      Item.Placed "/*\n*/\"a\nb\"@//c\n\"d\n" k.start k.curr
        (.error ⟨4, .unterminatedString⟩) := by
  have hscan : scan "/*\n*/\"a\nb\"@//c\n\"d\n" =
      [.token ⟨.string "a\nb", "\"a\nb\"", 3⟩, .error ⟨3, .unexpectedCharacter '@'⟩,
        .error ⟨4, .unterminatedString⟩, .token ⟨.eof, "", 5⟩] := by decide +kernel
  have hlength : (bytesOf "/*\n*/\"a\nb\"@//c\n\"d\n").length < 20 := by decide +kernel
  refine ⟨hscan, hlength, ?_⟩
  apply (line_numbers_exact _).1 20 hlength 2
  rw [hscan]
  rfl

end Lox
