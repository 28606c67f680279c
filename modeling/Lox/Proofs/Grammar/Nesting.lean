import Lox.Proofs.Grammar.Tracking

/-!
# The rules tied together

Each level of the rules contains the one below. Two towers of rules agree on more tokens the higher
they are, whatever they stand on. An error inside a declaration is recorded there, and recovery
passes a token at least and does not go beyond the seam.
-/

set_option autoImplicit false

namespace Lox.Grammar

variable {α β : Type}

/-! ## The end of the input -/

/-- At the end of the input an expression is missing. -/
def LacksExpression (p : Parser α) : Prop :=
  ∀ s, s.atEnd = true → p s = fail .expression s

section Missing
variable {r : Rules}

theorem LacksExpression.bind {p : Parser α} (hp : LacksExpression p) (f : α → Parser β) :
    LacksExpression (p >>= f) := by
  intro s hend
  exact bind_of_error (hp s hend)

theorem LacksExpression.falters {p : Parser α} (hp : LacksExpression p) : Falters p := by
  intro s hend
  obtain ⟨e, s', hfail, he⟩ := falters_fail (α := α) .expression s hend
  exact ⟨e, s', (hp s hend).trans hfail, he⟩

theorem primary_lacks (r : Rules) : LacksExpression (primary r) := by
  intro s hend
  have hkind : s.peek.kind = .eof := by simpa [State.atEnd] using hend
  have hpeek : peek s = .ok s.peek s := rfl
  unfold primary
  rw [bind_of_ok hpeek, hkind]

theorem unary_lacks (r : Rules) : LacksExpression (unary r) := by
  intro s hend
  have hkind : s.peek.kind = .eof := by simpa [State.atEnd] using hend
  have hpeek : peek s = .ok s.peek s := rfl
  unfold unary
  rw [bind_of_ok hpeek, hkind]
  exact (primary_lacks r).bind _ s hend

theorem operation_lacks (r : Rules) (ls : List Level) : LacksExpression (operation r ls) := by
  induction ls with
  | nil => exact unary_lacks r
  | cons level tighter ih => exact ih.bind _

theorem assignment_lacks (r : Rules) : LacksExpression (assignment r) :=
  (operation_lacks r levels).bind _

end Missing

/-! ## Recovery -/

theorem skipStatement_suffix (previous : Token) (ts : List Token) :
    (skipStatement previous ts).2 <:+ ts := by
  fun_induction skipStatement previous ts with
  | case1 previous => exact List.suffix_rfl
  | case2 previous t rest => exact List.suffix_rfl
  | case3 previous t rest _ ih => exact ih.trans (List.suffix_cons t rest)

theorem State.Leads.skip (s : State) : s.Leads s.skipToStatement := by
  have hskip := skipStatement_suffix s.advance.previous s.advance.rest
  refine ⟨hskip.trans (State.Leads.advance s).rest, ?_⟩
  rewrite [errors_skipToStatement]
  exact List.prefix_rfl

/-- Recovery passes a token at least. -/
theorem length_skipToStatement {s : State} (hend : s.atEnd = false) :
    s.skipToStatement.rest.length < s.rest.length := by
  have hadvance := length_advance (s := s) (by simpa [State.atEnd] using hend)
  have hskip := (skipStatement_suffix s.advance.previous s.advance.rest).length_le
  change (skipStatement s.advance.previous s.advance.rest).2.length < _
  omega

theorem skipStatement_stop {previous : Token} {ts : List Token}
    (h : nextKind ts = .eof ∨ previous.kind = .symbol .semicolon) :
    skipStatement previous ts = (previous, ts) := by
  cases ts with
  | nil => rfl
  | cons t ts =>
    unfold skipStatement
    rcases h with h | h
    · rw [nextKind_cons] at h
      simp [h]
    · simp [h]

section Recovery
variable {c : Seam} {front : List Token} {s s' : State}

/-- Recovery stops at the seam at the latest. -/
theorem Seam.skipStatement {previous : Token} (hends : c.tail = c.tail' ∨
      ∀ t ∈ (previous :: front).getLast?, t.kind = .symbol .semicolon) :
    ∃ previous' front',
      Grammar.skipStatement previous (front ++ c.tail) = (previous', front' ++ c.tail) ∧
      Grammar.skipStatement previous (front ++ c.tail') = (previous', front' ++ c.tail') ∧
      (c.tail = c.tail' ∨ ∀ t ∈ (previous' :: front').getLast?, t.kind = .symbol .semicolon) := by
  induction front generalizing previous with
  | nil =>
    refine ⟨previous, [], skipStatement_stop (Or.inl c.closes), skipStatement_stop ?_, hends⟩
    rcases hends with htail | hlast
    · exact Or.inl (htail ▸ c.closes)
    · exact Or.inr (hlast previous rfl)
  | cons t front ih =>
    simp only [List.cons_append, Grammar.skipStatement]
    split
    · exact ⟨previous, t :: front, rfl, rfl, hends⟩
    · exact ih hends

theorem advance_atEnd (hend : s.atEnd = true) : s.advance = s := by
  unfold State.advance
  split
  · rfl
  · rename_i t rest hrest
    have ht : (t.kind == .eof) = true := by simpa [State.atEnd, State.peek, hrest] using hend
    rw [if_pos ht]

theorem Paired.skip (h : Paired c front s s') (hinside : c.Inside front) :
    ∃ front', Paired c front' s.skipToStatement s'.skipToStatement := by
  have hadvance : ∃ front', Paired c front' s.advance s'.advance := by
    cases hend : s.atEnd with
    | true =>
      rw [advance_atEnd hend, advance_atEnd (by rw [atEnd_eq (hinside.peek h), hend])]
      exact ⟨front, h⟩
    | false => exact h.advance hinside (by simpa [State.atEnd] using hend)
  obtain ⟨front₁, h₁⟩ := hadvance
  obtain ⟨previous', front', hskip, hskip', hends⟩ := Seam.skipStatement h₁.ends
  refine ⟨front', ?_⟩
  unfold State.skipToStatement
  simp only [h₁.rest, h₁.rest', h₁.previous, hskip, hskip']
  exact ⟨rfl, rfl, rfl, h₁.errors, hends⟩

theorem leads_recovering {p : Parser Stmt} {n : Nat} (hp : Reads n p s) :
    Reads 0 (recovering p) s := by
  cases hps : p s with
  | ok stmt s₁ =>
    obtain ⟨hleads, hlength⟩ := hp.of_ok hps
    have hrun : recovering p s = .ok (some stmt) s₁ := by simp [recovering, hps]
    exact .intro_ok hrun hleads hleads.rest.length_le
  | error e s₁ =>
    have hleads := ((hp.of_error hps).trans (.record s₁ e)).trans (.skip _)
    have hrun : recovering p s = .ok none (s₁.record e).skipToStatement := by simp [recovering, hps]
    exact .intro_ok hrun hleads hleads.rest.length_le

/-- A declaration that is not at the end of the input is passed, with or without an error. -/
theorem reads_recovering {p : Parser Stmt} {n : Nat} (hp : Reads (n + 1) p s)
    (hend : s.atEnd = false) : Reads 1 (recovering p) s := by
  have hleads := leads_recovering hp
  cases hps : p s with
  | ok stmt s₁ =>
    have hrun : recovering p s = .ok (some stmt) s₁ := by simp [recovering, hps]
    have hlength := (hp.of_ok hps).2
    exact .intro_ok hrun (hleads.of_ok hrun).1 (by omega)
  | error e s₁ =>
    have hrun : recovering p s = .ok none (s₁.record e).skipToStatement := by simp [recovering, hps]
    refine .intro_ok hrun (hleads.of_ok hrun).1 ?_
    have hrest := (hp.of_error hps).rest
    have hle := hrest.length_le
    cases hend₁ : s₁.atEnd with
    | false =>
      have hskip : (s₁.record e).skipToStatement.rest.length < s₁.rest.length :=
        length_skipToStatement hend₁
      omega
    | true =>
      -- The parser itself has passed a token, for it has come to the end of the input.
      have hne : s₁.rest.length ≠ s.rest.length := by
        intro hlength
        rw [State.atEnd, State.peek, hrest.eq_of_length hlength] at hend₁
        rw [State.atEnd, State.peek, hend₁] at hend
        cases hend
      have hskip : (s₁.record e).skipToStatement.rest.length ≤ s₁.rest.length :=
        (State.Leads.skip (s₁.record e)).rest.length_le
      omega

theorem tracks_recovering {p p' : Parser Stmt} {m n : Nat} (hp : Tracks c false m (n + 1) p p' s s')
    (hend : s.atEnd = false) : Tracks c false m 1 (recovering p) (recovering p') s s' := by
  refine ⟨reads_recovering hp.reads hend, ?_⟩
  intro front hpaired hinside hlength
  have hagrees := hp.agrees front hpaired hinside hlength
  unfold recovering
  generalize p s = x at hagrees
  generalize p' s' = x' at hagrees
  cases hagrees with
  | ok hpaired₁ hinner =>
    refine .ok hpaired₁ fun hset => ?_
    cases hset
  | error hpaired₁ hinside₁ =>
    obtain ⟨front', hpaired'⟩ := (hpaired₁.record _).skip hinside₁
    refine .ok hpaired' fun hset => ?_
    cases hset
  | spoilt htail hspoilt =>
    refine .spoilt htail ?_
    cases x with
    | ok stmt s₁ => exact hspoilt
    | error e s₁ =>
      change ∃ e' ∈ (s₁.record e).skipToStatement.errors, e'.location = .atEnd
      rw [errors_skipToStatement]
      rcases hspoilt with he | ⟨e', he', hlocation⟩
      · exact ⟨e, List.mem_append_right _ (List.mem_singleton_self e), he⟩
      · exact ⟨e', List.mem_append_left _ he', hlocation⟩

end Recovery

/-! ## The rules tied together -/

/-- The rules that contain the given ones. -/
def Rules.next (r : Rules) : Rules :=
  ⟨r.bound + 1, assignment r, Grammar.unary r, Grammar.statement r, recovering (declarationRule r)⟩

/-- The rules that contain the given ones `n` levels down. -/
def Rules.nest (last : Rules) : Nat → Rules
  | 0 => last
  | n + 1 => (last.nest n).next

theorem rulesAt_succ (n : Nat) : rulesAt (n + 1) = (rulesAt n).next := by
  simp only [rulesAt, Rules.next, expression, unaryExpression, nestedStatement, declaration]

theorem rulesAt_add (k n : Nat) : rulesAt (k + n) = (rulesAt k).nest n := by
  induction n with
  | zero => rfl
  | succ n ih => rw [← Nat.add_assoc, rulesAt_succ, ih, Rules.nest]

/-- A level passes a token before it opens the next one, except that a statement may start with an
expression. -/
theorem Rules.Tracks.next {c : Seam} {e d : Nat} {r r' : Rules} (h : r.Tracks c e d r') :
    r.next.Tracks c (min (e + 1) (d + 4)) (min e (d + 1)) r'.next where
  bound := by
    have hbound := h.bound
    simp only [Rules.next]
    omega
  bound' := by
    have hbound := h.bound'
    simp only [Rules.next]
    omega
  expression _ _ := tracks_assignment h (by omega) (by omega)
  unary _ _ := tracks_unary h (by omega) (by omega)
  statement _ _ := tracks_statement h (by omega) (by omega)
  declaration _ _ hend := tracks_recovering (tracks_declarationRule h (by omega) (by omega)) hend
  falters := (assignment_lacks r).falters

theorem lacks_expression (n : Nat) : LacksExpression (rulesAt n).expression := by
  cases n with
  | zero => exact fun _ _ => rfl
  | succ n =>
    rw [rulesAt_succ]
    exact assignment_lacks (rulesAt n)

theorem lacks_unary (n : Nat) : LacksExpression (rulesAt n).unary := by
  cases n with
  | zero => exact fun _ _ => rfl
  | succ n =>
    rw [rulesAt_succ]
    exact unary_lacks (rulesAt n)

/-- Rules of some depth agree with deeper ones on as many tokens as they are deep. -/
theorem rulesAt_tracks (c : Seam) {n k : Nat} (hn : n ≤ k) :
    (rulesAt n).Tracks c (n + 1) n (rulesAt k) := by
  induction n generalizing k with
  | zero =>
    have hnone {α : Type} (s : State) : Reads 1 (fail .expression : Parser α) s :=
      .intro_error rfl (.refl s)
    have hfail {p : Parser Expr} (hp : LacksExpression p) (s s' : State) :
        Tracks c true 1 1 (fail .expression) p s s' :=
      .of_atEnd (hnone s) (Nat.le_refl 1) (fun _ => rfl)
        (hp s') .fail
    exact {
      bound := Nat.le_refl 1
      bound' := Nat.le_add_left 1 k
      expression := hfail (lacks_expression k)
      unary := hfail (lacks_unary k)
      statement := fun s s' => .of_none (hnone s) rfl
      declaration := fun s s' hend => .of_none (reads_recovering (hnone s) hend) rfl
      falters := (lacks_expression 0).falters }
  | succ n ih =>
    obtain ⟨k, rfl⟩ : ∃ j, k = j + 1 := Nat.exists_eq_add_one_of_ne_zero (by omega)
    have hnext := (ih (Nat.le_of_succ_le_succ hn)).next
    rw [Nat.min_eq_left (by omega), Nat.min_self] at hnext
    rwa [rulesAt_succ, rulesAt_succ]

section Nest
variable {c : Seam} {e d : Nat} {r r' : Rules}

/-- On no tokens at all, anything may stand on the other side. -/
theorem Rules.Tracks.of_none (h : r.Tracks c e d r') (last : Rules) : r.Tracks c 0 0 last where
  bound := Nat.zero_le _
  bound' := Nat.zero_le _
  expression s s' := .of_none (h.expression s s').reads rfl
  unary s s' := .of_none (h.unary s s').reads rfl
  statement s s' := .of_none (h.statement s s').reads rfl
  declaration s s' hend := .of_none (h.declaration s s' hend).reads rfl
  falters := h.falters

theorem Rules.Tracks.nest (h : r.Tracks c 0 0 r') (n : Nat) :
    (r.nest n).Tracks c n (n - 1) (r'.nest n) := by
  induction n with
  | zero => exact h
  | succ n ih =>
    have hnext := ih.next
    rwa [Nat.min_eq_left (by omega), show min n (n - 1 + 1) = n + 1 - 1 by omega] at hnext

end Nest

/-! ## Programs -/

section Programs
variable {c : Seam} {d : Nat} {one one' : Parser (Option Stmt)}

theorem toEnd_atEnd (one : Parser (Option Stmt)) (k : Nat) {s : State} (hend : s.atEnd = true) :
    toEnd one k s = .ok [] s := by
  cases k with
  | zero => rfl
  | succ k =>
    change (if s.atEnd = true then pure [] else _ : Parser (List Stmt)) s = _
    rw [if_pos hend]
    rfl

theorem toEnd_succ (one : Parser (Option Stmt)) (k : Nat) {s : State} (hend : s.atEnd = false) :
    toEnd one (k + 1) s =
      (one >>= fun first => toEnd one k >>= fun others => pure (first.toList ++ others)) s := by
  change (if s.atEnd = true then pure [] else _ : Parser (List Stmt)) s = _
  rw [hend]
  rfl

theorem reads_toEnd (hone : ∀ s, s.atEnd = false → Reads 1 one s) (k : Nat) (s : State) :
    Reads 0 (toEnd one k) s := by
  induction k generalizing s with
  | zero => exact .stay rfl
  | succ k ih =>
    cases hend : s.atEnd with
    | true => exact .stay (toEnd_atEnd one (k + 1) hend)
    | false =>
      refine .of_eq ?_ (toEnd_succ one k hend)
      exact ((hone s hend).mono (Nat.zero_le 1)).bind fun first s₁ =>
        (ih s₁).bind fun others s₂ => .stay rfl

/-- The first run reads its declarations up to the end of the input, and the second one reads the
same ones before it goes on; or the first run is spoilt. -/
theorem toEnd_tracks (hone : ∀ s s', s.atEnd = false → Tracks c false d 1 one one' s s')
    (hok : ∀ s, ∃ stmt? s', one s = .ok stmt? s') {k k' : Nat} {front : List Token} {s s' : State}
    (hpaired : Paired c front s s') (hd : s.rest.length < d) (hk : s.rest.length ≤ k)
    (hk' : s'.rest.length ≤ k') :
    (c.tail ≠ c.tail' ∧ Spoilt (toEnd one k s)) ∨ ∃ ss front₁ s₁ s₁' j,
      toEnd one k s = .ok ss s₁ ∧ s₁.atEnd = true ∧ Paired c front₁ s₁ s₁' ∧
      s₁'.rest.length ≤ j ∧
      toEnd one' k' s' = (toEnd one' j >>= fun others => pure (ss ++ others)) s₁' := by
  induction k generalizing k' front s s' with
  | zero =>
    have hend : s.atEnd = true := atEnd_of_rest_nil (List.eq_nil_of_length_eq_zero (by omega))
    right
    refine ⟨[], front, s, s', k', rfl, hend, hpaired, hk', ?_⟩
    simp
  | succ k ih =>
    cases hend : s.atEnd with
    | true =>
      right
      refine ⟨[], front, s, s', k', toEnd_atEnd one (k + 1) hend, hend, hpaired, hk', ?_⟩
      simp
    | false =>
      have hinside : c.Inside front := by
        apply Classical.byContradiction
        intro houtside
        obtain ⟨-, rfl⟩ := Seam.outside houtside
        rw [hpaired.atEnd] at hend
        cases hend
      have hend' : s'.atEnd = false := by rw [atEnd_eq (hinside.peek hpaired), hend]
      have hreads (s : State) : Reads 0 (toEnd one k) s :=
        reads_toEnd (fun s hend => (hone s s hend).reads) k s
      obtain ⟨k', rfl⟩ : ∃ j, k' = j + 1 := by
        apply Nat.exists_eq_add_one_of_ne_zero
        intro hzero
        rw [atEnd_of_rest_nil (List.eq_nil_of_length_eq_zero (by omega))] at hend'
        cases hend'
      rw [toEnd_succ one k hend, toEnd_succ one' k' hend']
      have hagrees := (hone s s' hend).agrees front hpaired hinside hd
      generalize hx : one s = x at hagrees
      generalize hx' : one' s' = x' at hagrees
      cases hagrees with
      | @ok first front₁ s₁ s₁' hpaired₁ _ =>
        obtain ⟨-, hless⟩ := (hone s s' hend).reads.of_ok hx
        have hfront : s₁'.rest.length + 1 ≤ s'.rest.length := by
          simp only [hpaired.rest, hpaired.rest', hpaired₁.rest, hpaired₁.rest',
            List.length_append] at hless ⊢
          omega
        rw [bind_of_ok hx, bind_of_ok hx']
        rcases ih hpaired₁ (by omega) (by omega) (by omega : s₁'.rest.length ≤ k') with
          ⟨htail, hspoilt⟩ | ⟨ss, front₂, s₂, s₂', j, hrun, hend₂, hpaired₂, hj, hrun'⟩
        · left
          exact ⟨htail, Tracks.spoilt_bind (n := 0) hspoilt fun others s => .stay rfl⟩
        · right
          refine ⟨first.toList ++ ss, front₂, s₂, s₂', j, ?_, hend₂, hpaired₂, hj, ?_⟩
          · rw [bind_of_ok hrun]
            rfl
          · cases hj' : toEnd one' j s₂' with
            | ok others s₃ =>
              rw [bind_of_ok hj'] at hrun' ⊢
              rw [bind_of_ok hrun', List.append_assoc]
            | error e s₃ =>
              rw [bind_of_error hj'] at hrun' ⊢
              rw [bind_of_error hrun']
      | error _ _ =>
        obtain ⟨stmt?, s₁, hstmt⟩ := hok s
        rw [hx] at hstmt
        cases hstmt
      | spoilt htail hspoilt =>
        left
        rw [← hx] at hspoilt
        exact ⟨htail, Tracks.spoilt_bind hspoilt fun first s =>
          (hreads s).bind fun others s => .stay rfl⟩

end Programs

end Lox.Grammar
