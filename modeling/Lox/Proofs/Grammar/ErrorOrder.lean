import Lox.Proofs.Grammar.Regular
import Lox.Proofs.Grammar.Termination
import Lox.Proofs.Token.LineNumbers

/-!
# The order of syntax errors

A parser records an error at the token that comes next, and tokens come in the order of their
lines. So the errors come in that order too. The one exception is the target of an assignment: it
can be judged only when the value has been read, and the error stands at the sign before the value.
-/

set_option autoImplicit false

namespace Lox.Grammar

variable {α β : Type}

/-! ## Values of assignments -/

/-- The later error is about the target of the assignment with this sign, and the earlier one is
among those of its value, which starts at the tokens after the sign. -/
structure Displaces (sign : Token) (after : List Token) (e e' : ParseError) : Prop where
  equal : sign.kind = .symbol .equal
  target : e' = ⟨sign.line, .atLexeme sign.lexeme, .invalidTarget⟩
  value : ∃ value s, expression (depthBound after) ⟨sign, after, []⟩ = .ok value s ∧ e ∈ s.errors

/-- The same rules, but an expression is only read where fewer tokens than this are left. -/
def Rules.upTo (e : Nat) (r : Rules) : Rules :=
  { r with expression := fun s => if s.rest.length < e then r.expression s else fail .expression s }

/-- Rules of depth `n` that read no expression for which they may not be deep enough. -/
def guardedRules : Nat → Rules
  | 0 => (rulesAt 0).upTo 1
  | n + 1 => (guardedRules n).next.upTo (n + 2)

section Guarded
variable {earlier : List ParseError} {n : Nat} {s s' : State} {value : Expr}

theorem Rules.Tracks.upTo {e d : Nat} {r r' : Rules} (h : r.Tracks (.none earlier) e d r') :
    r.Tracks (.none earlier) e d (r'.upTo e) := by
  refine { h with expression := fun s s' => ⟨(h.expression s s').reads, ?_⟩ }
  intro front hpaired hinside hlength
  have hguard : s'.rest.length < e := by
    rw [hpaired.rest']
    rwa [hpaired.rest] at hlength
  dsimp only [Rules.upTo]
  rw [if_pos hguard]
  exact (h.expression s s').agrees front hpaired hinside hlength

/-- The guard never stops a run that starts with few enough tokens. -/
theorem guardedRules_tracks (earlier : List ParseError) (n : Nat) :
    (rulesAt n).Tracks (.none earlier) (n + 1) n (guardedRules n) := by
  induction n with
  | zero => exact (rulesAt_tracks _ (Nat.le_refl 0)).upTo
  | succ n ih =>
    have hnext := ih.next
    rw [Nat.min_eq_left (by omega), Nat.min_self, ← rulesAt_succ] at hnext
    exact hnext.upTo

theorem length_of_guarded (h : (guardedRules n).expression s = .ok value s') :
    s.rest.length < n + 1 := by
  apply Classical.byContradiction
  intro hlong
  have hfail : (guardedRules n).expression s = fail .expression s := by
    cases n with
    | zero => exact if_neg hlong
    | succ n => exact if_neg hlong
  rw [hfail] at h
  cases h

/-- Any depth that suffices gives the same expression. -/
theorem expression_eq_of_lt (hlength : s.rest.length < n + 1) :
    expression (depthBound s.rest) s = expression n s := by
  have hpaired : Paired (.none []) s.rest s s :=
    ⟨(List.append_nil _).symm, (List.append_nil _).symm, rfl, rfl, Or.inl rfl⟩
  rcases Nat.le_total n (depthBound s.rest) with hle | hle
  · exact (((rulesAt_tracks (.none []) hle).expression s s).agrees _ hpaired (Or.inl rfl)
      hlength).eq
  · have hbound : s.rest.length < depthBound s.rest + 1 := by
      unfold depthBound
      omega
    exact (((rulesAt_tracks (.none []) hle).expression s s).agrees _ hpaired (Or.inl rfl)
      hbound).eq.symm

/-- An expression with a guard is read as one without, and adds the errors that it has when it is
read alone. -/
theorem expression_of_guarded (h : (guardedRules n).expression s = .ok value s') :
    ∃ new, s'.errors = s.errors ++ new ∧
      expression (depthBound s.rest) ⟨s.previous, s.rest, []⟩ =
        .ok value ⟨s'.previous, s'.rest, new⟩ := by
  have hlength := length_of_guarded h
  have hpaired : Paired (.none s.errors) s.rest ⟨s.previous, s.rest, []⟩ s :=
    ⟨(List.append_nil _).symm, (List.append_nil _).symm, rfl, (List.append_nil _).symm, Or.inl rfl⟩
  have hagrees := ((guardedRules_tracks s.errors n).expression _ s).agrees _ hpaired (Or.inl rfl)
    hlength
  rw [h] at hagrees
  have halone := expression_eq_of_lt (s := ⟨s.previous, s.rest, []⟩) hlength
  change expression (depthBound s.rest) _ = (rulesAt n).expression _ at halone
  rw [halone]
  generalize (rulesAt n).expression _ = alone at hagrees ⊢
  cases hagrees with
  | ok hpaired' _ =>
    refine ⟨_, hpaired'.errors, ?_⟩
    have hrest := hpaired'.rest'.trans hpaired'.rest.symm
    rw [hpaired'.previous, hrest]
  | spoilt htail _ => exact absurd rfl htail

end Guarded

/-! ## States -/

/-- No error is on an earlier line than one recorded before it, unless it is about the target of an
assignment and the other one is in the value. -/
def InOrder (ts : List Token) (errors : List ParseError) : Prop :=
  errors.Pairwise fun e e' =>
    e.line ≤ e'.line ∨ ∃ sign after, sign :: after <:+ ts ∧ Displaces sign after e e'

variable {ts : List Token}

/-- The errors are in order, and what is left to read comes after them, after what has been read,
and after the given line. -/
structure State.Orderly (ts : List Token) (line : Nat) (s : State) : Prop where
  suffix : s.rest <:+ ts
  sorted : s.rest.Pairwise fun t t' => t.line ≤ t'.line
  ended : ∃ t ∈ s.rest, t.kind = .eof
  after : ∀ t ∈ s.rest, line ≤ t.line
  after_previous : ∀ t ∈ s.rest, s.previous.line ≤ t.line
  after_errors : ∀ t ∈ s.rest, ∀ e ∈ s.errors, e.line ≤ t.line
  inOrder : InOrder ts s.errors

namespace State.Orderly
variable {line : Nat} {s : State}

theorem since_previous (h : s.Orderly ts line) : s.Orderly ts s.previous.line :=
  { h with after := h.after_previous }

theorem pass {previous t : Token} {rest : List Token} {errors : List ParseError}
    (h : Orderly ts line ⟨previous, t :: rest, errors⟩) (ht : t.kind ≠ .eof) :
    Orderly ts line ⟨t, rest, errors⟩ := by
  obtain ⟨hhead, hsorted⟩ := List.pairwise_cons.1 h.sorted
  obtain ⟨last, hlast, hkind⟩ := h.ended
  refine ⟨(List.suffix_cons t rest).trans h.suffix, hsorted, ⟨last, ?_, hkind⟩, ?_, hhead, ?_,
    h.inOrder⟩
  · rcases List.mem_cons.1 hlast with rfl | hlast
    · exact absurd hkind ht
    · exact hlast
  · intro t' ht'
    exact h.after t' (List.mem_cons_of_mem _ ht')
  · intro t' ht'
    exact h.after_errors t' (List.mem_cons_of_mem _ ht')

theorem advance (h : s.Orderly ts line) : s.advance.Orderly ts line := by
  obtain ⟨previous, rest, errors⟩ := s
  cases rest with
  | nil => exact h
  | cons t rest =>
    by_cases ht : t.kind = .eof
    · simpa [State.advance, ht] using h
    · simpa [State.advance, ht] using h.pass ht

theorem record {e : ParseError} (h : s.Orderly ts line) (hahead : ∀ t ∈ s.rest, e.line ≤ t.line)
    (hbehind : ∀ e' ∈ s.errors, e'.line ≤ e.line ∨
      ∃ sign after, sign :: after <:+ ts ∧ Displaces sign after e' e) :
    (s.record e).Orderly ts line := by
  refine { h with after_errors := ?_, inOrder := ?_ }
  · intro t ht e' he'
    rcases List.mem_append.1 he' with he' | he'
    · exact h.after_errors t ht e' he'
    · obtain rfl := List.mem_singleton.1 he'
      exact hahead t ht
  · refine List.pairwise_append.2 ⟨h.inOrder, List.pairwise_singleton _ _, ?_⟩
    intro e' he' e'' he''
    obtain rfl := List.mem_singleton.1 he''
    exact hbehind e' he'

/-- There is a token to record an error at, for the end of the input is one. -/
theorem record_here (h : s.Orderly ts line) (fault : ParseFault) :
    (s.record (s.errorHere fault)).Orderly ts line := by
  obtain ⟨previous, rest, errors⟩ := s
  cases rest with
  | nil =>
    obtain ⟨t, ht, -⟩ := h.ended
    cases ht
  | cons t rest =>
    apply h.record
    · intro t' ht'
      rcases List.mem_cons.1 ht' with rfl | ht'
      · exact Nat.le_refl _
      · exact (List.pairwise_cons.1 h.sorted).1 t' ht'
    · intro e he
      exact .inl (h.after_errors t List.mem_cons_self e he)

theorem skipStatement {previous : Token} {rest : List Token} {errors : List ParseError}
    (h : Orderly ts line ⟨previous, rest, errors⟩) :
    Orderly ts line ⟨(skipStatement previous rest).1, (skipStatement previous rest).2, errors⟩ := by
  induction rest generalizing previous with
  | nil => exact h
  | cons t rest ih =>
    rw [Grammar.skipStatement]
    split
    · exact h
    · rename_i hgoes
      apply ih
      apply h.pass
      intro ht
      simp [ht] at hgoes

theorem skipToStatement (h : s.Orderly ts line) : s.skipToStatement.Orderly ts line :=
  h.advance.skipStatement

end State.Orderly

/-! ## Parsers -/

/-- The errors are in order where the parser has come to, its own one included if it has stopped. -/
def LeavesOrder (ts : List Token) (line : Nat) : EStateM.Result ParseError State α → Prop
  | .ok _ s => s.Orderly ts line
  | .error e s => (s.record e).Orderly ts line

def KeepsOrder (ts : List Token) (p : Parser α) : Prop :=
  ∀ line s, s.Orderly ts line → LeavesOrder ts line (p s)

namespace KeepsOrder
variable {p : Parser α} {f : α → Parser β}

theorem pure (a : α) : KeepsOrder ts (Pure.pure a : Parser α) :=
  fun _ _ h => h

theorem bind (hp : KeepsOrder ts p) (hf : ∀ a, KeepsOrder ts (f a)) : KeepsOrder ts (p >>= f) := by
  intro line s h
  have hleaves := hp line s h
  cases hrun : p s with
  | ok a s' =>
    rw [hrun] at hleaves
    rw [bind_of_ok hrun]
    exact hf a line s' hleaves
  | error e s' =>
    rw [hrun] at hleaves
    rw [bind_of_error hrun]
    exact hleaves

theorem bind_pure (hp : KeepsOrder ts p) (g : α → β) :
    KeepsOrder ts (p >>= fun a => Pure.pure (g a)) :=
  hp.bind fun a => .pure (g a)

theorem ite {c : Prop} [Decidable c] {q : Parser α} (hp : KeepsOrder ts p) (hq : KeepsOrder ts q) :
    KeepsOrder ts (if c then p else q) := by
  split
  · exact hp
  · exact hq

theorem peek : KeepsOrder ts peek := fun _ _ h => h

theorem atEnd : KeepsOrder ts atEnd := fun _ _ h => h

theorem check (kind : Kind) : KeepsOrder ts (check kind) := fun _ _ h => h

theorem checkSecond (kind : Kind) : KeepsOrder ts (checkSecond kind) := fun _ _ h => h

theorem previous : KeepsOrder ts previous := fun _ _ h => h

theorem advance : KeepsOrder ts advance := fun _ _ h => h.advance

theorem accept (kind : Kind) : KeepsOrder ts (accept kind) := by
  intro line s h
  unfold Grammar.accept
  split
  · exact h.advance
  · exact h

theorem report (fault : ParseFault) : KeepsOrder ts (report fault) :=
  fun _ _ h => h.record_here fault

theorem fail (what : Expectation) : KeepsOrder ts (fail what : Parser α) :=
  fun _ _ h => h.record_here _

theorem expect (kind : Kind) (what : Expectation) : KeepsOrder ts (expect kind what) := by
  intro line s h
  unfold Grammar.expect
  split
  · exact h.advance
  · exact h.record_here _

theorem expectSymbol (symbol : Symbol) (what : Expectation) :
    KeepsOrder ts (expectSymbol symbol what) :=
  expect _ _

/-- The choice that a parser makes by the next token. -/
theorem accept_ite {kind : Kind} {p q : Parser β} (hp : KeepsOrder ts p) (hq : KeepsOrder ts q) :
    KeepsOrder ts (Grammar.accept kind >>= fun b => if b = true then p else q) :=
  (accept kind).bind fun _ => .ite hp hq

theorem identifier (what : Expectation) : KeepsOrder ts (identifier what) :=
  (expect _ _).bind_pure _

theorem recovering {p : Parser Stmt} (hp : KeepsOrder ts p) : KeepsOrder ts (recovering p) := by
  intro line s h
  have hleaves := hp line s h
  unfold Grammar.recovering
  split
  · rename_i stmt s' hrun
    rw [hrun] at hleaves
    exact hleaves
  · rename_i e s' hrun
    rw [hrun] at hleaves
    exact hleaves.skipToStatement

theorem toEnd {one : Parser (Option Stmt)} (hone : KeepsOrder ts one) (n : Nat) :
    KeepsOrder ts (toEnd one n) := by
  induction n with
  | zero => exact .pure []
  | succ n ih =>
    refine atEnd.bind fun _ => .ite (.pure []) ?_
    exact hone.bind fun _ => ih.bind_pure _

end KeepsOrder

/-! ## Rules -/

structure Rules.KeepOrder (ts : List Token) (r : Rules) : Prop where
  expression : KeepsOrder ts r.expression
  unary : KeepsOrder ts r.unary
  statement : KeepsOrder ts r.statement
  declaration : KeepsOrder ts r.declaration
  /-- An expression adds the errors that it has when it is read alone. -/
  alone : ∀ {s s' value}, r.expression s = .ok value s' → ∃ new, s'.errors = s.errors ++ new ∧
    Grammar.expression (depthBound s.rest) ⟨s.previous, s.rest, []⟩ =
      .ok value ⟨s'.previous, s'.rest, new⟩

namespace Rules.KeepOrder
variable {r : Rules}

theorem parameters (n count : Nat) : KeepsOrder ts (parameters n count) := by
  induction n generalizing count with
  | zero => exact .fail _
  | succ n ih =>
    have hrest : KeepsOrder ts (do
        let first ← identifier .parameterName
        if ← acceptSymbol .comma then
          let others ← Grammar.parameters n (count + 1)
          return first :: others
        return [first]) :=
      (KeepsOrder.identifier _).bind fun _ => .accept_ite ((ih (count + 1)).bind_pure _) (.pure _)
    exact .ite ((KeepsOrder.report _).bind fun _ => hrest) hrest

variable (h : r.KeepOrder ts)
include h

theorem declarations (n : Nat) : KeepsOrder ts (declarations r n) := by
  induction n with
  | zero => exact .pure []
  | succ n ih =>
    refine (KeepsOrder.check _).bind fun _ => KeepsOrder.atEnd.bind fun _ => .ite (.pure []) ?_
    exact h.declaration.bind fun _ => ih.bind_pure _

theorem block : KeepsOrder ts (block r) :=
  (h.declarations _).bind fun _ => (KeepsOrder.expectSymbol _ _).bind_pure _

theorem functionBody (kind : FunctionKind) (name : Option Ident) :
    KeepsOrder ts (functionBody r kind name) := by
  refine KeepsOrder.previous.bind fun _ => (KeepsOrder.expectSymbol _ _).bind fun _ => ?_
  have hrest (params : List Ident) (line : Nat) : KeepsOrder ts (do
      let _ ← expectSymbol .rightParen .parametersClose
      let _ ← expectSymbol .leftBrace (.bodyOpen kind)
      let body ← Grammar.block r
      return (⟨name, params, body, line⟩ : FunDecl)) :=
    (KeepsOrder.expectSymbol _ _).bind fun _ => (KeepsOrder.expectSymbol _ _).bind fun _ =>
      h.block.bind_pure _
  refine (KeepsOrder.check _).bind fun _ => .ite ?_ ?_
  · exact (KeepsOrder.pure []).bind fun params => hrest params _
  · exact (parameters _ _).bind fun params => hrest params _

theorem namedFunction (kind : FunctionKind) : KeepsOrder ts (namedFunction r kind) :=
  (KeepsOrder.identifier _).bind fun _ => h.functionBody kind _

theorem methods (n : Nat) : KeepsOrder ts (methods r n) := by
  induction n with
  | zero => exact .pure []
  | succ n ih =>
    refine (KeepsOrder.check _).bind fun _ => KeepsOrder.atEnd.bind fun _ => .ite (.pure []) ?_
    exact (h.namedFunction _).bind fun _ => ih.bind_pure _

theorem classDeclaration : KeepsOrder ts (classDeclaration r) := by
  have hrest (name : Ident) (superclass : Option (Ident × Slot)) : KeepsOrder ts (do
      let _ ← expectSymbol .leftBrace .classBodyOpen
      let members ← Grammar.methods r r.bound
      let _ ← expectSymbol .rightBrace .classBodyClose
      return Stmt.classDecl name superclass members) :=
    (KeepsOrder.expectSymbol _ _).bind fun _ => (h.methods _).bind fun _ =>
      (KeepsOrder.expectSymbol _ _).bind_pure _
  refine (KeepsOrder.identifier _).bind fun name => .accept_ite ?_ ?_
  · exact (KeepsOrder.identifier _).bind fun _ => (KeepsOrder.pure _).bind (hrest name)
  · exact (KeepsOrder.pure _).bind (hrest name)

theorem varDeclaration : KeepsOrder ts (varDeclaration r) := by
  have hrest (name : Ident) (initializer : Option Expr) : KeepsOrder ts (do
      let _ ← expectSymbol .semicolon .endOfVariable
      return Stmt.var name initializer) := (KeepsOrder.expectSymbol _ _).bind_pure _
  refine (KeepsOrder.identifier _).bind fun name => .accept_ite ?_ ?_
  · exact h.expression.bind fun _ => (KeepsOrder.pure _).bind (hrest name)
  · exact (KeepsOrder.pure _).bind (hrest name)

theorem expressionStatement : KeepsOrder ts (expressionStatement r) :=
  h.expression.bind fun _ => (KeepsOrder.expectSymbol _ _).bind_pure _

theorem optionalExpression (terminator : Symbol) :
    KeepsOrder ts (optionalExpression r terminator) :=
  (KeepsOrder.check _).bind fun _ => .ite (.pure none) (h.expression.bind_pure _)

theorem forInitializer : KeepsOrder ts (forInitializer r) :=
  .accept_ite (.pure none) <|
    .accept_ite (h.varDeclaration.bind_pure _) (h.expressionStatement.bind_pure _)

theorem forStatement : KeepsOrder ts (forStatement r) := by
  refine KeepsOrder.previous.bind fun _ => (KeepsOrder.expectSymbol _ _).bind fun _ => ?_
  refine h.forInitializer.bind fun _ => (h.optionalExpression _).bind fun _ => ?_
  refine (KeepsOrder.expectSymbol _ _).bind fun _ => (h.optionalExpression _).bind fun _ => ?_
  exact (KeepsOrder.expectSymbol _ _).bind fun _ => h.statement.bind_pure _

theorem ifStatement : KeepsOrder ts (ifStatement r) := by
  refine (KeepsOrder.expectSymbol _ _).bind fun _ => h.expression.bind fun _ => ?_
  refine (KeepsOrder.expectSymbol _ _).bind fun _ => h.statement.bind fun _ => ?_
  exact .accept_ite (h.statement.bind_pure _) (.pure _)

theorem whileStatement : KeepsOrder ts (whileStatement r) := by
  refine (KeepsOrder.expectSymbol _ _).bind fun _ => h.expression.bind fun _ => ?_
  exact (KeepsOrder.expectSymbol _ _).bind fun _ => h.statement.bind_pure _

theorem returnStatement : KeepsOrder ts (returnStatement r) :=
  KeepsOrder.previous.bind fun _ => (h.optionalExpression _).bind fun _ =>
    (KeepsOrder.expectSymbol _ _).bind_pure _

omit h in
theorem breakStatement : KeepsOrder ts breakStatement :=
  KeepsOrder.previous.bind fun _ => (KeepsOrder.expectSymbol _ _).bind_pure _

theorem printStatement : KeepsOrder ts (printStatement r) :=
  h.expression.bind fun _ => (KeepsOrder.expectSymbol _ _).bind_pure _

theorem statementRule : KeepsOrder ts (Grammar.statement r) :=
  .accept_ite h.forStatement <| .accept_ite h.ifStatement <| .accept_ite h.whileStatement <|
    .accept_ite h.returnStatement <| .accept_ite breakStatement <|
    .accept_ite (h.block.bind_pure _) <| .accept_ite h.printStatement h.expressionStatement

theorem declarationRule : KeepsOrder ts (declarationRule r) := by
  refine .accept_ite h.classDeclaration ?_
  refine (KeepsOrder.check _).bind fun _ => (KeepsOrder.checkSecond _).bind fun _ => .ite ?_ ?_
  · exact KeepsOrder.advance.bind fun _ => (h.namedFunction _).bind_pure _
  · exact .accept_ite h.varDeclaration h.statementRule

theorem arguments (n count : Nat) : KeepsOrder ts (arguments r n count) := by
  induction n generalizing count with
  | zero => exact .fail _
  | succ n ih =>
    have hrest : KeepsOrder ts (do
        let first ← r.expression
        if ← acceptSymbol .comma then
          let others ← Grammar.arguments r n (count + 1)
          return first :: others
        return [first]) :=
      h.expression.bind fun _ => .accept_ite ((ih (count + 1)).bind_pure _) (.pure _)
    exact .ite ((KeepsOrder.report _).bind fun _ => hrest) hrest

theorem primary : KeepsOrder ts (primary r) := by
  refine KeepsOrder.peek.bind fun t => ?_
  have hpass {f : Token → Parser Expr} (hf : ∀ t, KeepsOrder ts (f t)) :
      KeepsOrder ts (advance >>= f) := KeepsOrder.advance.bind hf
  split
  · exact hpass fun _ => .pure _
  · exact hpass fun _ => .pure _
  · exact hpass fun _ => .pure _
  · exact hpass fun _ => .pure _
  · exact hpass fun _ => .pure _
  · exact hpass fun _ => .pure _
  · refine hpass fun _ => (KeepsOrder.expectSymbol _ _).bind fun _ => ?_
    exact (KeepsOrder.identifier _).bind_pure _
  · exact hpass fun _ => .pure _
  · exact hpass fun _ => (h.functionBody _ _).bind_pure _
  · refine hpass fun _ => h.expression.bind fun _ => ?_
    exact (KeepsOrder.expectSymbol _ _).bind_pure _
  · exact .fail _

theorem callSuffixes (n : Nat) (callee : Expr) : KeepsOrder ts (callSuffixes r n callee) := by
  induction n generalizing callee with
  | zero => exact .pure callee
  | succ n ih =>
    have hrest (passed : List Expr) : KeepsOrder ts (do
        let close ← expectSymbol .rightParen .argumentsClose
        Grammar.callSuffixes r n (.call callee passed close.line)) :=
      (KeepsOrder.expectSymbol _ _).bind fun _ => ih _
    refine .accept_ite ((KeepsOrder.check _).bind fun _ => .ite ?_ ?_) (.accept_ite ?_ (.pure _))
    · exact (KeepsOrder.pure []).bind hrest
    · exact (h.arguments _ _).bind hrest
    · exact (KeepsOrder.identifier _).bind fun _ => ih _

theorem unaryRule : KeepsOrder ts (Grammar.unary r) := by
  refine KeepsOrder.peek.bind fun t => ?_
  split
  · exact KeepsOrder.advance.bind fun _ => h.unary.bind_pure _
  · exact KeepsOrder.advance.bind fun _ => h.unary.bind_pure _
  · exact h.primary.bind fun first => h.callSuffixes _ first

omit h in
theorem operands {level : Level} {operand : Parser Expr} (hoperand : KeepsOrder ts operand)
    (n : Nat) (left : Expr) : KeepsOrder ts (operands level operand n left) := by
  induction n generalizing left with
  | zero => exact .pure left
  | succ n ih =>
    refine KeepsOrder.peek.bind fun t => ?_
    split
    · exact .pure left
    · exact KeepsOrder.advance.bind fun _ => hoperand.bind fun _ => ih _

theorem operation (ls : List Level) : KeepsOrder ts (operation r ls) := by
  induction ls with
  | nil => exact h.unaryRule
  | cons level tighter ih => exact ih.bind fun left => operands ih _ left

/-- The sign of an assignment comes after the errors before the value, and precedes whatever is left
to read after the value. -/
theorem assignment : KeepsOrder ts (assignment r) := by
  refine (h.operation levels).bind fun target => ?_
  intro line s hs
  cases hsign : s.check (.symbol .equal) with
  | false =>
    rw [bind_of_ok (show acceptSymbol .equal s = .ok false s from accept_of_check hsign)]
    exact hs
  | true =>
    have hkind : s.peek.kind = .symbol .equal := (peek_kind_of_check s hsign).1
    obtain ⟨hrest, hprevious⟩ := rest_eq_advance s (by simp [hkind])
    have hleaves := h.expression line _ hs.advance
    have hsince := h.expression _ _ hs.advance.since_previous
    have haccept : acceptSymbol .equal s = .ok true s.advance := if_pos hsign
    rw [bind_of_ok haccept, if_pos rfl,
      bind_of_ok (show previous s.advance = .ok s.advance.previous s.advance from rfl)]
    cases hrun : r.expression s.advance with
    | error e s' =>
      rw [hrun] at hleaves
      rw [bind_of_error hrun]
      exact hleaves
    | ok value s' =>
      rw [hrun] at hleaves hsince
      rw [bind_of_ok hrun]
      cases assignment? target value with
      | some e => exact hleaves
      | none =>
        obtain ⟨new, herrors, halone⟩ := h.alone hrun
        apply State.Orderly.record hleaves hsince.after
        intro e he
        rw [herrors, errors_advance] at he
        rcases List.mem_append.1 he with hearlier | hnew
        · left
          exact hs.after_errors s.advance.previous (hrest ▸ List.mem_cons_self) e hearlier
        · right
          refine ⟨s.advance.previous, s.advance.rest, hrest ▸ hs.suffix, ?_, rfl, value, _, halone,
            hnew⟩
          rw [hprevious, hkind]

omit h in
theorem upTo (e : Nat) (hexpression : KeepsOrder ts r.expression) :
    KeepsOrder ts (r.upTo e).expression := by
  intro line s hs
  dsimp only [Rules.upTo]
  split
  · exact hexpression line s hs
  · exact KeepsOrder.fail _ line s hs

end Rules.KeepOrder

theorem guardedRules_keepOrder (n : Nat) : (guardedRules n).KeepOrder ts := by
  induction n with
  | zero =>
    refine ⟨?_, .fail _, .fail _, .recovering (.fail _), expression_of_guarded⟩
    exact Rules.KeepOrder.upTo 1 (.fail _)
  | succ n ih =>
    refine ⟨?_, ih.unaryRule, ih.statementRule, ih.declarationRule.recovering,
      expression_of_guarded⟩
    exact Rules.KeepOrder.upTo (n + 2) ih.assignment

/-! ## Whole programs -/

theorem tokens_sorted (source : String) :
    (tokens source).Pairwise fun t t' => t.line ≤ t'.line := by
  refine List.pairwise_map.1 (lines_sorted_of_part ?_ source)
  intro item t h
  cases item with
  | token => exact congrArg Token.line (Option.some.inj h)
  | error => cases h

theorem orderly_start (source : String) :
    (State.start (tokens source)).Orderly (tokens source) 0 := by
  obtain ⟨ts, eof, htokens, heof, -⟩ := tokens_proper source
  refine ⟨List.suffix_refl _, tokens_sorted source, ⟨eof, ?_, heof⟩, ?_, ?_, ?_, .nil⟩
  · simp [State.start, htokens]
  · exact fun t _ => Nat.zero_le t.line
  · exact fun t _ => Nat.zero_le t.line
  · intro t _ e he
    cases he

theorem inOrder_of_parsed {source : String} {errors : List ParseError}
    (h : parseProgram (tokens source) = .error errors) : InOrder (tokens source) errors := by
  have hkeeps := (guardedRules_keepOrder (depthBound (tokens source))).declaration.toEnd
    (depthBound (tokens source)) 0 _ (orderly_start source)
  have hguarded : programBy (guardedRules (depthBound (tokens source)))
      (depthBound (tokens source)) (tokens source) = .error errors := by
    rw [← h]
    exact programBy_eq (guardedRules_tracks [] _) (declaration_ok _) (Nat.lt_succ_self _)
      (Nat.le_succ _) (Nat.le_succ _)
  unfold programBy at hguarded
  generalize toEnd _ _ _ = outcome at hkeeps hguarded
  cases outcome with
  | ok p s =>
    rw [result] at hguarded
    split at hguarded
    · cases hguarded
    · obtain rfl := Except.error.inj hguarded
      exact hkeeps.inOrder
  | error e s =>
    obtain rfl := Except.error.inj hguarded
    exact hkeeps.inOrder

end Lox.Grammar
