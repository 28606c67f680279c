import Lox.Proofs.Token.InPlace

/-!
# The decomposition of a source

The items of a source are those of its pieces, and the cursor yields them one by one: first the
items in order, then the end of the text, and then nothing, however often it is asked.
-/

set_option autoImplicit false

namespace Lox

open Piece

/-- The items of a text that starts on the given line, with the end of the text. -/
def upcoming (line : Nat) (cs : List Char) : List Item :=
  items line (split cs) ++ [.token ⟨.eof, "", lineAfter line (split cs)⟩]

theorem upcoming_nil (line : Nat) : upcoming line [] = [.token ⟨.eof, "", line⟩] := by
  rw [upcoming, split_nil]
  rfl

theorem upcoming_cons (line : Nat) (c : Char) (rest : List Char) :
    upcoming line (c :: rest) = ((next c rest).1.item? line).toList ++
      upcoming (line + (next c rest).1.newlines) (next c rest).2 := by
  rw [upcoming, split_cons, lineAfter_cons, items, List.append_assoc]
  rfl

theorem scan_eq_upcoming (source : String) : scan source = upcoming 1 source.toList := by
  rw [scan, itemsFrom_eq]
  rfl

namespace Cursor

/-- The items that are left to be yielded. -/
inductive Awaits (text : String) (k : Cursor) : List Item → Prop where
  | inside {before cs : List Char} (htext : text.toList = before ++ cs)
      (hcurr : k.curr = (utf8 before).length) : Awaits text k (upcoming k.line cs)
  | done (hcurr : (bytesOf text).length < k.curr) : Awaits text k []

variable {text : String} {turns : Nat}

theorem utf8_length_pos (c : Char) (cs : List Char) : 0 < (utf8 (c :: cs)).length := by
  have hsize := c.utf8Size_pos
  rw [length_utf8_cons, String.length_utf8EncodeChar]
  omega

/-- At the end of the text the cursor yields the end, and is done. -/
theorem nextItem_end {k : Cursor} (hcurr : k.curr = (bytesOf text).length) (left : Nat) :
    nextItem text turns (left + 1) k =
      .ok (some (.token ⟨.eof, "", k.line⟩), { k with curr := k.curr + 1 }) := by
  rw [nextItem, bind_ok (get_eq k), if_neg (by omega), if_pos hcurr]
  rfl

theorem nextItem_done {k : Cursor} (hcurr : (bytesOf text).length < k.curr) (left : Nat) :
    nextItem text turns (left + 1) k = .ok (none, k) := by
  rw [nextItem, bind_ok (get_eq k), if_pos hcurr]
  rfl

/-- Before the end, the cursor scans a piece, and yields its item or goes on. -/
theorem nextItem_piece (hturns : (bytesOf text).length < turns) {before rest : List Char} {c : Char}
    {k : Cursor} (htext : text.toList = before ++ c :: rest)
    (hcurr : k.curr = (utf8 before).length) (left : Nat) :
    nextItem text turns (left + 1) k = match (next c rest).1.item? k.line with
      | some (.error e) => .ok (some (.error e), past before k.line (next c rest).1)
      | some (.token t) => .ok (some (.token t),
          within before (next c rest).1.chars (k.line + (next c rest).1.newlines) none)
      | none => nextItem text turns left
          (within before (next c rest).1.chars (k.line + (next c rest).1.newlines) none) := by
  have hlength := length_bytesOf htext
  have hpos := utf8_length_pos c rest
  have hset : { k with start := k.curr, pending := none } = within before [] k.line none := by
    rw [within, List.append_nil, hcurr]
  rw [nextItem, bind_ok (get_eq k), if_neg (by omega), if_neg (by omega), bind_ok rfl, hset,
    bind_ok (scanPiece_eq htext hturns)]
  have happend := next_append c rest
  cases hp : (next c rest).1 with
  | blank d => rfl
  | comment chars => rfl
  | refused d => rfl
  | openString chars => rfl
  | token kind chars =>
    have hpassed : text.toList = before ++ chars ++ (next c rest).2 := by
      rw [htext, ← happend, hp, List.append_assoc]
      rfl
    have hlexeme (line : Nat) : lexeme text (within before chars line none) =
        .ok (String.ofList chars, within before chars line none) := lexeme_within hpassed
    have herror : (Piece.token kind chars).error? k.line = none := rfl
    have hpending : (past before k.line (.token kind chars)).pending = some kind := rfl
    rw [herror]
    dsimp only
    rw [bind_ok (get_eq _), bind_ok rfl, hpending]
    dsimp only
    exact bind_ok (hlexeme (k.line + chars.count '\n'))

/-- A request yields the first of the items that are left, and leaves the others. -/
theorem nextItem_inside (hturns : (bytesOf text).length < turns) {before cs : List Char}
    {k : Cursor} {left : Nat} (htext : text.toList = before ++ cs)
    (hcurr : k.curr = (utf8 before).length) (hleft : (utf8 cs).length < left) :
    ∃ item more k', upcoming k.line cs = item :: more ∧
      nextItem text turns left k = .ok (some item, k') ∧ Awaits text k' more := by
  induction hn : cs.length using Nat.strongRecOn generalizing before cs k left with
  | _ n ih =>
    subst hn
    obtain ⟨left, rfl⟩ := Nat.exists_eq_succ_of_ne_zero (Nat.ne_zero_of_lt hleft)
    have hlength := length_bytesOf htext
    cases cs with
    | nil =>
      have hend : k.curr = (bytesOf text).length := by rw [hlength, hcurr]; rfl
      refine ⟨_, [], _, upcoming_nil k.line, nextItem_end hend left, .done ?_⟩
      exact hend ▸ Nat.lt_succ_self _
    | cons c rest =>
      have happend := next_append c rest
      have hafter : text.toList = before ++ (next c rest).1.chars ++ (next c rest).2 := by
        rw [htext, List.append_assoc, happend]
      have hstep := nextItem_piece hturns htext hcurr left
      rw [upcoming_cons]
      cases hitem : (next c rest).1.item? k.line with
      | some item =>
        cases item with
        | error e =>
          rw [hitem] at hstep
          exact ⟨_, _, _, rfl, hstep, .inside hafter rfl⟩
        | token t =>
          rw [hitem] at hstep
          exact ⟨_, _, _, rfl, hstep, .inside hafter rfl⟩
      | none =>
        rw [hitem] at hstep
        -- The piece has a byte at least, so that the turns that are left suffice for the rest.
        have hbytes : (utf8 (next c rest).2).length < left := by
          obtain ⟨d, ds, hd⟩ := List.exists_cons_of_ne_nil (next_ne_nil c rest)
          have hpos := utf8_length_pos d ds
          rw [← happend, utf8_append, List.length_append, hd] at hleft
          omega
        obtain ⟨item, more, k', hitems, hrun, hawaits⟩ :=
          ih _ (length_next_lt c rest) hafter (within_curr _ _ _ none) hbytes rfl
        exact ⟨item, more, k', hitems, hstep.trans hrun, hawaits⟩

theorem nextItem_eq (hturns : (bytesOf text).length < turns) {k : Cursor} {left : List Item}
    (h : Awaits text k left) :
    ∃ k', nextItem text turns turns k = .ok (left.head?, k') ∧ Awaits text k' left.tail := by
  cases h with
  | @inside before cs htext hcurr =>
    have hlength := length_bytesOf htext
    have hleft : (utf8 cs).length < turns := by omega
    obtain ⟨item, more, k', hitems, hrun, hawaits⟩ := nextItem_inside hturns htext hcurr hleft
    rw [hitems]
    exact ⟨k', hrun, hawaits⟩
  | done hcurr =>
    obtain ⟨turns, rfl⟩ := Nat.exists_eq_succ_of_ne_zero (Nat.ne_zero_of_lt hturns)
    exact ⟨k, nextItem_done hcurr turns, .done hcurr⟩

/-- However often the cursor is asked, it yields the items in order, and nothing after them. -/
theorem requests_eq (hturns : (bytesOf text).length < turns) (n : Nat) {k : Cursor}
    {left : List Item} (h : Awaits text k left) :
    ∃ k', requests text turns n k = .ok ((List.range n).map (left[·]?), k') := by
  induction n generalizing k left with
  | zero => exact ⟨k, rfl⟩
  | succ n ih =>
    obtain ⟨k', hrun, hawaits⟩ := nextItem_eq hturns h
    obtain ⟨k'', hrest⟩ := ih hawaits
    refine ⟨k'', ?_⟩
    have hitems : (List.range (n + 1)).map (left[·]?) =
        left.head? :: (List.range n).map (left.tail[·]?) := by
      rw [List.range_succ_eq_map, List.map_cons, List.map_map]
      simp [List.head?_eq_getElem?, Function.comp_def]
    rw [requests, bind_ok hrun, bind_ok hrest, hitems]
    rfl

end Cursor

/-- The pieces of a text are the only ones that are well cut and make up the text. -/
theorem split_iff (ps : List Piece) (cs : List Char) :
    ps = split cs ↔ AllWellCut ps ∧ ps.flatMap chars = cs := by
  constructor
  · rintro rfl
    exact ⟨split_wellCut cs, flatMap_chars_split cs⟩
  · rintro ⟨hcut, rfl⟩
    exact hcut.split_eq.symm

theorem Piece.WellCut.kind_ne_eof {p : Piece} {rest : List Char} {line : Nat} {t : Token}
    (h : WellCut p rest) (ht : p.item? line = some (.token t)) : t.kind ≠ .eof := by
  cases h with
  | token hlexeme =>
    cases ht
    rintro rfl
    cases hlexeme
  | _ => cases ht

/-- No piece yields the end of the text. -/
theorem Piece.AllWellCut.kind_ne_eof {ps : List Piece} (h : AllWellCut ps) {line : Nat} {t : Token}
    (ht : .token t ∈ items line ps) : t.kind ≠ .eof := by
  induction h generalizing line with
  | nil => cases ht
  | cons hp _ ih =>
    rcases List.mem_append.1 ht with ht | ht
    · exact hp.kind_ne_eof (Option.mem_toList.1 ht)
    · exact ih ht

/-- A source is cut in one way into pieces that are well cut: tokens that are the longest match at
their place, blanks, comments, refused characters and at most an open string. Its items are those of
the pieces, each token and each error in its place, and then the end, which is no other item. A scan
of its bytes whose loops may take more turns than there are bytes does not break down. It yields the
items one by one, and nothing after the last. -/
theorem longest_match_decomposition (source : String) :
    (∀ ps, ps = split source.toList ↔ AllWellCut ps ∧ ps.flatMap chars = source.toList) ∧
      scan source = items 1 (split source.toList) ++
        [.token ⟨.eof, "", 1 + source.toList.count '\n'⟩] ∧
      (∀ t, .token t ∈ items 1 (split source.toList) → t.kind ≠ .eof) ∧
      ∀ turns, (bytesOf source).length < turns → ∀ n, ∃ k,
        Cursor.requests source turns n Cursor.initial =
          .ok ((List.range n).map ((scan source)[·]?), k) := by
  have hcut := split_wellCut source.toList
  refine ⟨fun ps => split_iff ps source.toList, scan_eq source, fun t => hcut.kind_ne_eof, ?_⟩
  intro turns hturns n
  have hstart : source.toList = [] ++ source.toList := rfl
  rw [scan_eq_upcoming]
  exact Cursor.requests_eq hturns n (.inside hstart rfl)

/-- The character of two bytes is refused once, and the comment without an end takes the rest. -/
theorem longest_match_decomposition_cut_off :
    AllWellCut [.token (.string "é") ['"', 'é', '"'], .token (.symbol .equalEqual) ['=', '='],
        .token (.symbol .slash) ['/'], .refused 'é', .comment ['/', '*', '/']] ∧
      (bytesOf "\"é\"==/é/*/").length < 13 ∧
      (∃ k, Cursor.requests "\"é\"==/é/*/" 13 7 Cursor.initial =
        .ok ([some (.token ⟨.string "é", "\"é\"", 1⟩), some (.token ⟨.symbol .equalEqual, "==", 1⟩),
          some (.token ⟨.symbol .slash, "/", 1⟩), some (.error ⟨1, .unexpectedCharacter 'é'⟩),
          some (.token ⟨.eof, "", 1⟩), none, none], k)) ∧
      .token ⟨.symbol .slash, "/", 1⟩ ∈ items 1 (split "\"é\"==/é/*/".toList) ∧
      (Kind.symbol .slash ≠ .eof) := by
  obtain ⟨hsplit, hscan, heof, hrequests⟩ := longest_match_decomposition "\"é\"==/é/*/"
  have hlength : (bytesOf "\"é\"==/é/*/").length < 13 := by decide +kernel
  have hmem : Item.token ⟨.symbol .slash, "/", 1⟩ ∈ items 1 (split "\"é\"==/é/*/".toList) := by
    decide +kernel
  obtain ⟨k, hk⟩ := hrequests 13 hlength 7
  refine ⟨((hsplit _).1 (by decide +kernel)).1, hlength, ⟨k, hk.trans ?_⟩, hmem, heof _ hmem⟩
  have hitems : (List.range 7).map ((scan "\"é\"==/é/*/")[·]?) =
      [some (.token ⟨.string "é", "\"é\"", 1⟩), some (.token ⟨.symbol .equalEqual, "==", 1⟩),
        some (.token ⟨.symbol .slash, "/", 1⟩), some (.error ⟨1, .unexpectedCharacter 'é'⟩),
        some (.token ⟨.eof, "", 1⟩), none, none] := by decide +kernel
  rw [hitems]

end Lox
