import Lox.Proofs.Grammar.Termination

/-!
# An error does not spread

A program is cut after a semicolon. Unless the first part breaks off in the middle of something,
which shows in an error at its end, the parser stands at the start of a declaration at the cut, with
or without errors behind it. What it knows then is the token passed last and the errors so far, and
neither makes a difference to what follows.
-/

set_option autoImplicit false

namespace Lox.Grammar

variable {α β : Type}

/-! ## The token passed last -/

/-- Only the token passed last has been changed. -/
def State.after (t : Token) (s : State) : State :=
  { s with previous := t }

/-- The runs from `s.after t` and from `s` have the same result, unless they stop at once. -/
inductive SameResult (t : Token) (s : State) :
    EStateM.Result ParseError State α → EStateM.Result ParseError State α → Prop where
  | refl (x : EStateM.Result ParseError State α) : SameResult t s x x
  | stopped (e : ParseError) : SameResult t s (.error e (s.after t)) (.error e s)

/-- A parser that passes a token or stops, without a look at the token passed last. -/
def Forgets (p : Parser α) : Prop :=
  ∀ t s, SameResult t s (p (s.after t)) (p s)

section Forgetting
variable {p : Parser α} {t : Token} {s : State}

theorem advance_after (hkind : s.peek.kind ≠ .eof) : (s.after t).advance = s.advance := by
  obtain ⟨previous, rest, errors⟩ := s
  cases rest with
  | nil => exact absurd rfl hkind
  | cons u rest =>
    have hu : (u.kind == .eof) = false := by simpa [State.peek] using hkind
    simp [State.after, State.advance, hu]

theorem Forgets.bind (hp : Forgets p) (f : α → Parser β) : Forgets (p >>= f) := by
  intro t s
  have hsame := hp t s
  generalize hx : p (s.after t) = x at hsame
  generalize hx' : p s = x' at hsame
  cases hsame with
  | refl =>
    have hrun : (p >>= f) (s.after t) = (p >>= f) s := by
      simp only [Bind.bind, EStateM.bind, hx, hx']
    rw [hrun]
    exact .refl _
  | stopped e =>
    rw [bind_of_error hx, bind_of_error hx']
    exact .stopped e

theorem forgets_fail (what : Expectation) : Forgets (fail what : Parser α) := by
  intro t s
  exact .stopped _

theorem same_advance (hkind : s.peek.kind ≠ .eof) (f : Token → Parser β) :
    SameResult t s ((advance >>= f) (s.after t)) ((advance >>= f) s) := by
  have hrun : advance (s.after t) = advance s := by
    simp only [advance, advance_after hkind]
  have hbind : (advance >>= f) (s.after t) = (advance >>= f) s := by
    simp only [Bind.bind, EStateM.bind, hrun]
  rw [hbind]
  exact .refl _

theorem Forgets.accept {kind : Kind} {f : Bool → Parser β} (h : Forgets (f false)) :
    Forgets (accept kind >>= f) := by
  intro t s
  rw [accept_bind]
  change SameResult t s
    ((if s.check kind = true then advance >>= fun _ => f true else f false) (s.after t))
    ((if s.check kind = true then advance >>= fun _ => f true else f false) s)
  split
  · rename_i hcheck
    exact same_advance (peek_kind_of_check s hcheck).2 _
  · exact h t s

end Forgetting

section Rules
variable (r : Rules)

theorem forgets_primary : Forgets (primary r) := by
  intro t s
  have hpeek : peek s = .ok s.peek s := rfl
  have hpeek' : peek (s.after t) = .ok s.peek (s.after t) := rfl
  unfold primary
  rw [bind_of_ok hpeek, bind_of_ok hpeek']
  generalize hkind : s.peek.kind = kind
  have hpass {f : Token → Parser Expr} (hne : kind ≠ .eof) :
      SameResult t s ((advance >>= f) (s.after t)) ((advance >>= f) s) :=
    same_advance (hkind ▸ hne) f
  split
  -- Every kind of token that can start a primary expression is passed first.
  any_goals exact hpass (by simp)
  exact forgets_fail _ t s

theorem forgets_unary : Forgets (unary r) := by
  intro t s
  have hpeek : peek s = .ok s.peek s := rfl
  have hpeek' : peek (s.after t) = .ok s.peek (s.after t) := rfl
  unfold unary
  rw [bind_of_ok hpeek, bind_of_ok hpeek']
  generalize hkind : s.peek.kind = kind
  split
  · exact same_advance (by simp [hkind]) _
  · exact same_advance (by simp [hkind]) _
  · exact (forgets_primary r).bind _ t s

theorem forgets_operation (ls : List Level) : Forgets (operation r ls) := by
  induction ls with
  | nil => exact forgets_unary r
  | cons level tighter ih => exact ih.bind _

theorem forgets_expression (n : Nat) : Forgets (expression n) := by
  cases n with
  | zero =>
    rw [expression]
    exact forgets_fail _
  | succ n =>
    rw [expression]
    exact (forgets_operation _ levels).bind _

variable {r}

theorem forgets_statement (hr : Forgets r.expression) : Forgets (statement r) :=
  .accept <| .accept <| .accept <| .accept <| .accept <| .accept <| .accept <| hr.bind _

theorem forgets_declarationRule (hr : Forgets r.expression) : Forgets (declarationRule r) := by
  refine .accept ?_
  intro t s
  change SameResult t s
    ((if (s.check (.keyword .funKw) && s.checkSecond .identifier) = true then _ else _ :
      Parser Stmt) (s.after t))
    ((if (s.check (.keyword .funKw) && s.checkSecond .identifier) = true then _ else _ :
      Parser Stmt) s)
  split
  · rename_i hboth
    exact same_advance (peek_kind_of_check s (Bool.and_eq_true_iff.1 hboth).1).2 _
  · exact Forgets.accept (forgets_statement hr) t s

/-- Recovery passes a token, so that nothing is left of the one passed before it. -/
theorem recovering_after {p : Parser Stmt} (hp : Forgets p) {t : Token} {s : State}
    (hend : s.atEnd = false) : recovering p (s.after t) = recovering p s := by
  have hsame := hp t s
  unfold recovering
  generalize p (s.after t) = x at hsame
  generalize p s = x' at hsame
  cases hsame with
  | refl => rfl
  | stopped e =>
    have hkind : s.peek.kind ≠ .eof := by simpa [State.atEnd] using hend
    have hadvance : ((s.after t).record e).advance = (s.record e).advance :=
      advance_after (s := s.record e) hkind
    simp only [State.skipToStatement, hadvance]

theorem declaration_after (n : Nat) {t : Token} {s : State} (hend : s.atEnd = false) :
    declaration n (s.after t) = declaration n s := by
  cases n with
  | zero =>
    rw [declaration]
    exact recovering_after (forgets_fail _) hend
  | succ n =>
    rw [declaration]
    exact recovering_after (forgets_declarationRule (forgets_expression n)) hend

end Rules

/-! ## Programs -/

/-- The errors of a parse, of which there are none if it succeeds. -/
def parseErrors : Except (List ParseError) α → List ParseError
  | .ok _ => []
  | .error errors => errors

section Programs
variable {tokens : List Token}

/-- Any depth and any number of rounds that suffice give the same program. -/
theorem parseProgram_eq {n k : Nat} (hn : tokens.length < n) (hk : tokens.length ≤ k) :
    parseProgram tokens = programBy (rulesAt n) k tokens := by
  have hdeep := rulesAt_tracks (.none []) (show depthBound tokens ≤ n from hn)
  exact (programBy_eq hdeep (declaration_ok _) (Nat.lt_succ_self _) (Nat.le_succ _) hk).symm

@[simp] theorem parseErrors_result (a : α) (s : State) :
    parseErrors (result (.ok a s)) = s.errors := by
  change parseErrors (if s.errors.isEmpty = true then .ok a else .error s.errors) = s.errors
  split
  · rename_i hempty
    exact (List.isEmpty_iff.1 hempty).symm
  · rfl

theorem result_eq_ok {a b : α} {s : State} :
    result (.ok a s) = .ok b ↔ s.errors = [] ∧ a = b := by
  change (if s.errors.isEmpty = true then .ok a else .error s.errors) = Except.ok b ↔ _
  split
  · rename_i hempty
    simp [List.isEmpty_iff.1 hempty]
  · rename_i hempty
    rw [List.isEmpty_iff] at hempty
    simp [hempty]

theorem Spoilt.mem_errors {x : EStateM.Result ParseError State α} (h : Spoilt x) :
    ∃ e ∈ parseErrors (result x), e.location = .atEnd := by
  cases x with
  | ok a s =>
    rw [parseErrors_result]
    exact h
  | error e s =>
    change ∃ e' ∈ s.errors ++ [e], e'.location = .atEnd
    rcases h with he | ⟨e', he', hlocation⟩
    · exact ⟨e, List.mem_append_right _ (List.mem_singleton_self e), he⟩
    · exact ⟨e', List.mem_append_left _ he', hlocation⟩

theorem toEnd_after {n k : Nat} {t : Token} {s s₁ : State} {ss : List Stmt}
    (h : toEnd (declaration n) k (s.after t) = .ok ss s₁) :
    ∃ s₁', toEnd (declaration n) k s = .ok ss s₁' ∧ s₁'.errors = s₁.errors := by
  cases k with
  | zero =>
    cases h
    exact ⟨s, rfl, rfl⟩
  | succ k =>
    cases hend : s.atEnd with
    | true =>
      rw [toEnd_atEnd _ _ (s := s.after t) hend] at h
      cases h
      exact ⟨s, toEnd_atEnd _ _ hend, rfl⟩
    | false =>
      refine ⟨s₁, ?_, rfl⟩
      rw [toEnd_succ _ k (s := s.after t) hend] at h
      rw [toEnd_succ _ k hend, ← h]
      simp only [Bind.bind, EStateM.bind, declaration_after n hend]

/-- A run that starts with errors and after some token is the run from the start, with its errors
after those. -/
theorem toEnd_resumed {n k j : Nat} {s : State} (hn : s.rest.length < n) (hk : s.rest.length ≤ k)
    (hj : s.rest.length ≤ j) : ∃ ss s₁ s₂, toEnd (declaration n) k (.start s.rest) = .ok ss s₁ ∧
      toEnd (declaration n) j s = .ok ss s₂ ∧ s₂.errors = s.errors ++ s₁.errors := by
  have hpaired : Paired (.none s.errors) s.rest ((State.start s.rest).after s.previous) s :=
    ⟨(List.append_nil _).symm, (List.append_nil _).symm, rfl, (List.append_nil _).symm, Or.inl rfl⟩
  have hone := (rulesAt_tracks (.none s.errors) (Nat.le_refl n)).declaration
  have htracks := toEnd_tracks hone (declaration_ok n) hpaired hn hk hj
  rcases htracks with ⟨htail, -⟩ | ⟨ss, front, s₁, s₂, i, hrun, hend, hpaired₁, -, hrun'⟩
  · exact absurd rfl htail
  · obtain ⟨s₁', hstart, herrors⟩ := toEnd_after hrun
    have hend₂ : s₂.atEnd = true := by
      rw [atEnd_eq (Seam.Inside.peek (Or.inl rfl) hpaired₁), hend]
    rw [bind_of_ok (toEnd_atEnd _ i hend₂), List.append_nil] at hrun'
    exact ⟨ss, s₁', s₂, hstart, hrun', by rw [hpaired₁.errors, herrors]; rfl⟩

end Programs

section Cut
variable {as bs : List Token} {eof eof' : Token}

/-- Where a program that ends with a semicolon is cut off from what follows it. -/
def Seam.cut (bs : List Token) (eof eof' : Token) (heof : eof.kind = .eof)
    (heof' : eof'.kind = .eof) (hbs : nextKind bs ≠ .keyword .elseKw) : Seam where
  tail := [eof]
  tail' := bs ++ [eof']
  earlier := []
  closes := heof
  differs := by
    intro _
    refine ⟨List.cons_ne_nil _ _, ?_⟩
    cases bs with
    | nil => simp [nextKind, heof']
    | cons b bs => exact hbs

theorem paired_cut (heof : eof.kind = .eof) (heof' : eof'.kind = .eof)
    (hlast : as.getLast?.map Token.kind = some (.symbol .semicolon))
    (hfirst : nextKind bs ≠ .keyword .elseKw) :
    Paired (.cut bs eof eof' heof heof' hfirst) as (.start (as ++ [eof]))
      (.start (as ++ (bs ++ [eof']))) := by
  refine ⟨rfl, rfl, rfl, rfl, Or.inr ?_⟩
  intro t ht
  cases as with
  | nil => cases hlast
  | cons a as =>
    change t ∈ (endToken :: a :: as).getLast? at ht
    rw [List.getLast?_cons_cons] at ht
    rw [ht] at hlast
    exact Option.some.inj hlast

/-- The first part and then the second part are read as each would be on its own. -/
theorem toEnd_cut (has : ∀ t ∈ as, t.kind ≠ .eof) (heof : eof.kind = .eof)
    (heof' : eof'.kind = .eof) (hlast : as.getLast?.map Token.kind = some (.symbol .semicolon))
    (hfirst : nextKind bs ≠ .keyword .elseKw) {n : Nat} (hn : (as ++ (bs ++ [eof'])).length < n)
    (hend : ¬ Spoilt (toEnd (declaration n) n (.start (as ++ [eof])))) :
    ∃ ps qs s₁ s₂ s₃, toEnd (declaration n) n (.start (as ++ [eof])) = .ok ps s₁ ∧
      toEnd (declaration n) n (.start (bs ++ [eof'])) = .ok qs s₂ ∧
      toEnd (declaration n) n (.start (as ++ (bs ++ [eof']))) = .ok (ps ++ qs) s₃ ∧
      s₃.errors = s₁.errors ++ s₂.errors := by
  simp only [List.length_append, List.length_singleton] at hn
  have hone (s s' : State) (hend : s.atEnd = false) :
      Tracks (.cut bs eof eof' heof heof' hfirst) false n 1 (declaration n) (declaration n) s s' :=
    (rulesAt_tracks _ (Nat.le_refl n)).declaration s s' hend
  have hfits : (State.start (as ++ [eof])).rest.length < n ∧
      (State.start (as ++ (bs ++ [eof']))).rest.length ≤ n := by
    simp only [State.start, List.length_append, List.length_singleton]
    omega
  have htracks := toEnd_tracks hone (declaration_ok n) (paired_cut heof heof' hlast hfirst) hfits.1
    (Nat.le_of_lt hfits.1) hfits.2
  rcases htracks with ⟨-, hspoilt⟩ | ⟨ps, front, s₁, s₁', j, hrun, hatEnd, hpaired, hj, hrun'⟩
  · exact absurd hspoilt hend
  · have hreads := reads_toEnd (fun s hend => (hone s s hend).reads) n (.start (as ++ [eof]))
    obtain ⟨passed, hpassed⟩ := (hreads.of_ok hrun).1.rest
    rw [hpaired.rest, ← List.append_assoc] at hpassed
    have hfront := List.append_cancel_right hpassed
    cases front with
    | cons t front =>
      -- There is no end of input before the cut.
      have ht : t.kind ≠ .eof := has t (by simp [← hfront])
      simp [State.atEnd, State.peek, hpaired.rest, ht] at hatEnd
    | nil =>
      have hrest : s₁'.rest = bs ++ [eof'] := hpaired.rest'
      obtain ⟨qs, s₂, s₃, hsecond, hwhole, herrors⟩ := toEnd_resumed (n := n) (k := n) (j := j)
        (s := s₁') (by simp [hrest]; omega) (by simp [hrest]; omega) hj
      rw [hrest] at hsecond
      rw [bind_of_ok hwhole] at hrun'
      refine ⟨ps, qs, s₁, s₂, s₃, hrun, hsecond, hrun', ?_⟩
      rw [herrors, hpaired.errors]
      rfl

end Cut

/-- A parse error does not disturb what follows it. A program is cut after a semicolon and not
before an `else`, and its first part has no error at its end. Then the errors of the whole are those
of the first part and then those of the second, and without errors the statements are. -/
theorem errors_do_not_spread (as bs : List Token) (eof eof' : Token)
    (has : ∀ t ∈ as, t.kind ≠ .eof) (heof : eof.kind = .eof) (heof' : eof'.kind = .eof)
    (hlast : as.getLast?.map Token.kind = some (.symbol .semicolon))
    (hfirst : nextKind bs ≠ .keyword .elseKw)
    (hend : ∀ e ∈ parseErrors (parseProgram (as ++ [eof])), e.location ≠ .atEnd) :
    parseErrors (parseProgram (as ++ (bs ++ [eof']))) =
        parseErrors (parseProgram (as ++ [eof])) ++ parseErrors (parseProgram (bs ++ [eof'])) ∧
      (parseErrors (parseProgram (as ++ (bs ++ [eof']))) = [] →
        ∃ p q, parseProgram (as ++ [eof]) = .ok p ∧ parseProgram (bs ++ [eof']) = .ok q ∧
          parseProgram (as ++ (bs ++ [eof'])) = .ok (p ++ q)) := by
  obtain ⟨n, hn⟩ : ∃ n, (as ++ (bs ++ [eof'])).length < n := ⟨_, Nat.lt_succ_self _⟩
  have hlengths : (as ++ [eof]).length < n ∧ (bs ++ [eof']).length < n := by
    simp only [List.length_append, List.length_singleton] at hn ⊢
    omega
  have hwhole := parseProgram_eq hn (Nat.le_of_lt hn)
  have hleft := parseProgram_eq hlengths.1 (Nat.le_of_lt hlengths.1)
  have hright := parseProgram_eq hlengths.2 (Nat.le_of_lt hlengths.2)
  have hspoilt : ¬ Spoilt (toEnd (declaration n) n (.start (as ++ [eof]))) := by
    intro hspoilt
    obtain ⟨e, he, hlocation⟩ := hspoilt.mem_errors
    rw [hleft] at hend
    exact hend e he hlocation
  obtain ⟨ps, qs, s₁, s₂, s₃, hps, hqs, hall, herrors⟩ :=
    toEnd_cut has heof heof' hlast hfirst hn hspoilt
  simp only [programBy, rulesAt, hps, hqs, hall] at hwhole hleft hright
  rw [hwhole, hleft, hright]
  constructor
  · simp only [parseErrors_result, herrors]
  · intro hnone
    rw [parseErrors_result] at hnone
    have hparts := hnone
    rw [herrors] at hparts
    obtain ⟨hnone₁, hnone₂⟩ := List.append_eq_nil_iff.1 hparts
    refine ⟨ps, qs, ?_, ?_, ?_⟩
    · exact result_eq_ok.2 ⟨hnone₁, rfl⟩
    · exact result_eq_ok.2 ⟨hnone₂, rfl⟩
    · exact result_eq_ok.2 ⟨hnone, rfl⟩

/-- An error inside a block, from which the parser recovers there, and an error after it. -/
theorem errors_do_not_spread_block :
    let first : List Token := [⟨.symbol .leftBrace, "\x7b", 1⟩, ⟨.symbol .rightParen, ")", 1⟩,
      ⟨.symbol .semicolon, ";", 1⟩, ⟨.symbol .rightBrace, "\x7d", 1⟩,
      ⟨.keyword .breakKw, "break", 2⟩, ⟨.symbol .semicolon, ";", 2⟩]
    let second : List Token := [⟨.keyword .printKw, "print", 3⟩, ⟨.symbol .semicolon, ";", 3⟩]
    let end₁ : Token := ⟨.eof, "", 2⟩
    let end₂ : Token := ⟨.eof, "", 3⟩
    (∀ e ∈ parseErrors (parseProgram (first ++ [end₁])), e.location ≠ .atEnd) ∧
      parseErrors (parseProgram (first ++ (second ++ [end₂]))) =
        parseErrors (parseProgram (first ++ [end₁])) ++
          parseErrors (parseProgram (second ++ [end₂])) ∧
      parseErrors (parseProgram (first ++ (second ++ [end₂]))) =
        [⟨1, .atLexeme ")", .expected .expression⟩, ⟨3, .atLexeme ";", .expected .expression⟩] := by
  intro first second end₁ end₂
  have hend : ∀ e ∈ parseErrors (parseProgram (first ++ [end₁])), e.location ≠ .atEnd := by
    decide +kernel
  have hspread :=
    errors_do_not_spread first second end₁ end₂ (by decide) rfl rfl rfl (by decide) hend
  refine ⟨hend, hspread.1, ?_⟩
  decide +kernel

end Lox.Grammar
