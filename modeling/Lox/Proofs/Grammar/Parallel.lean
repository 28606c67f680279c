import Lox.Proofs.Grammar.Lookahead
import Lox.Proofs.Grammar.Soundness

/-!
# Two runs side by side

A parser never goes back: it only passes tokens and only adds errors. Two runs over tokens that are
the same up to a seam therefore make the same choices up to there. What the second run does beyond
the seam may differ, but then the first one has met the end of its input, and has an error there.
`Tracks` states both for one parser and one pair of states, so that it can be followed along binds.
-/

set_option autoImplicit false

namespace Lox.Grammar

variable {α β : Type}

/-! ## What a parser passes -/

/-- The second state comes later: tokens have only been passed, and errors only added. -/
structure State.Leads (s s' : State) : Prop where
  rest : s'.rest <:+ s.rest
  errors : s.errors <+: s'.errors

namespace State.Leads
variable {s s' s'' : State}

theorem refl (s : State) : s.Leads s :=
  ⟨List.suffix_rfl, List.prefix_rfl⟩

theorem trans (h : s.Leads s') (h' : s'.Leads s'') : s.Leads s'' :=
  ⟨h'.rest.trans h.rest, h.errors.trans h'.errors⟩

theorem advance (s : State) : s.Leads s.advance := by
  refine ⟨?_, by simp⟩
  unfold State.advance
  split
  · exact List.suffix_rfl
  · rename_i t rest hrest
    split
    · exact List.suffix_rfl
    · rw [hrest]
      exact List.suffix_cons t rest

theorem record (s : State) (e : ParseError) : s.Leads (s.record e) :=
  ⟨List.suffix_rfl, List.prefix_append _ _⟩

end State.Leads

/-- The parser never goes back, and it has passed `n` tokens at least if it succeeds. -/
def Reads (n : Nat) (p : Parser α) (s : State) : Prop :=
  match p s with
  | .ok _ s' => s.Leads s' ∧ s'.rest.length + n ≤ s.rest.length
  | .error _ s' => s.Leads s'

namespace Reads
variable {n m : Nat} {p : Parser α} {f : α → Parser β} {s s' : State} {a : α} {e : ParseError}

theorem of_ok (h : Reads n p s) (hp : p s = .ok a s') :
    s.Leads s' ∧ s'.rest.length + n ≤ s.rest.length := by
  unfold Reads at h
  rwa [hp] at h

theorem of_error (h : Reads n p s) (hp : p s = .error e s') : s.Leads s' := by
  unfold Reads at h
  rwa [hp] at h

theorem intro_ok (hp : p s = .ok a s') (h : s.Leads s') (hn : s'.rest.length + n ≤ s.rest.length) :
    Reads n p s := by
  unfold Reads
  rw [hp]
  exact ⟨h, hn⟩

theorem intro_error (hp : p s = .error e s') (h : s.Leads s') : Reads n p s := by
  unfold Reads
  rw [hp]
  exact h

theorem mono (h : Reads n p s) (hm : m ≤ n) : Reads m p s := by
  cases hp : p s with
  | ok a s' =>
    obtain ⟨hleads, hlength⟩ := h.of_ok hp
    exact intro_ok hp hleads (by omega)
  | error e s' => exact intro_error hp (h.of_error hp)

theorem of_eq {q : Parser α} (h : Reads n q s) (hp : p s = q s) : Reads n p s := by
  unfold Reads
  rw [hp]
  exact h

/-- A parser that leaves the state as it is. -/
theorem stay (hp : p s = .ok a s) : Reads 0 p s :=
  intro_ok hp (.refl s) (Nat.le_refl _)

end Reads

theorem bind_of_ok {p : Parser α} {f : α → Parser β} {s s' : State} {a : α} (h : p s = .ok a s') :
    (p >>= f) s = f a s' := by
  simp [Bind.bind, EStateM.bind, h]

theorem bind_of_error {p : Parser α} {f : α → Parser β} {s s' : State} {e : ParseError}
    (h : p s = .error e s') : (p >>= f) s = .error e s' := by
  simp [Bind.bind, EStateM.bind, h]

theorem Reads.bind {n m : Nat} {p : Parser α} {f : α → Parser β} {s : State} (hp : Reads m p s)
    (hf : ∀ a s', Reads (n - m) (f a) s') : Reads n (p >>= f) s := by
  cases hps : p s with
  | error e s' => exact .intro_error (bind_of_error hps) (hp.of_error hps)
  | ok a s' =>
    obtain ⟨hleads, hlength⟩ := hp.of_ok hps
    have hrun := bind_of_ok (f := f) hps
    cases hfs : f a s' with
    | error e s'' => exact .intro_error (hrun.trans hfs) (hleads.trans ((hf a s').of_error hfs))
    | ok b s'' =>
      obtain ⟨hleads', hlength'⟩ := (hf a s').of_ok hfs
      exact .intro_ok (hrun.trans hfs) (hleads.trans hleads') (by omega)

theorem length_advance {s : State} (h : s.peek.kind ≠ .eof) :
    s.advance.rest.length + 1 = s.rest.length := by
  obtain ⟨hrest, -⟩ := rest_eq_advance s h
  rw [hrest]
  rfl

/-! ## Seams -/

/-- Where two lists of tokens go on differently. Before the seam they are the same, and the last
token before it is a semicolon. The second run may start with errors that the first one does not
have. -/
structure Seam where
  tail : List Token
  tail' : List Token
  earlier : List ParseError
  /-- The first list has its end at the seam. -/
  closes : nextKind tail = .eof
  differs : tail ≠ tail' → tail ≠ [] ∧ nextKind tail' ≠ .keyword .elseKw

namespace Seam

/-- There is no seam: both runs read the same tokens. -/
def none (earlier : List ParseError) : Seam :=
  ⟨[], [], earlier, rfl, fun h => absurd rfl h⟩

/-- Both runs see the same next token. -/
def Inside (c : Seam) (front : List Token) : Prop :=
  c.tail = c.tail' ∨ front ≠ []

end Seam

/-- The two states are the same up to the seam, which comes after the tokens in `front`. -/
structure Paired (c : Seam) (front : List Token) (s s' : State) : Prop where
  rest : s.rest = front ++ c.tail
  rest' : s'.rest = front ++ c.tail'
  previous : s'.previous = s.previous
  errors : s'.errors = c.earlier ++ s.errors
  ends : c.tail = c.tail' ∨
    ∀ t ∈ (s.previous :: front).getLast?, t.kind = .symbol .semicolon

/-- The run has recorded an error at the end of the input, or has stopped there. -/
def Spoilt : EStateM.Result ParseError State α → Prop
  | .ok _ s => ∃ e ∈ s.errors, e.location = .atEnd
  | .error e s => e.location = .atEnd ∨ ∃ e ∈ s.errors, e.location = .atEnd

/-- The two runs have the same result, and their states are the same up to the seam; or the first
run is spoilt. If `inner` is set, the seam has not been reached. -/
inductive Agrees (c : Seam) (inner : Bool) :
    EStateM.Result ParseError State α → EStateM.Result ParseError State α → Prop where
  | ok {a : α} {front : List Token} {s s' : State} : Paired c front s s' →
      (inner = true → c.Inside front) → Agrees c inner (.ok a s) (.ok a s')
  | error {e : ParseError} {front : List Token} {s s' : State} : Paired c front s s' →
      c.Inside front → Agrees c inner (.error e s) (.error e s')
  | spoilt {x x' : EStateM.Result ParseError State α} : c.tail ≠ c.tail' → Spoilt x →
      Agrees c inner x x'

/-- Whether the seam has been reached may be left open. -/
theorem Agrees.edge {c : Seam} {inner : Bool} {x x' : EStateM.Result ParseError State α}
    (h : Agrees c true x x') : Agrees c inner x x' := by
  cases h with
  | ok hpaired hinner => exact .ok hpaired fun _ => hinner rfl
  | error hpaired hinside => exact .error hpaired hinside
  | spoilt htail hspoilt => exact .spoilt htail hspoilt

/-- The first parser passes `n` tokens at least if it succeeds, and on fewer than `m` tokens the
second one does the same up to the seam. -/
structure Tracks (c : Seam) (inner : Bool) (m n : Nat) (p p' : Parser α) (s s' : State) : Prop where
  reads : Reads n p s
  agrees : ∀ front, Paired c front s s' → c.Inside front → s.rest.length < m →
    Agrees c inner (p s) (p' s')

section States
variable {c : Seam} {front : List Token} {s s' : State}

theorem Seam.Inside.peek (hinside : c.Inside front) (h : Paired c front s s') :
    s'.peek = s.peek := by
  unfold State.peek
  rw [h.rest, h.rest']
  rcases hinside with htail | hfront
  · rw [htail]
  · cases front with
    | nil => exact absurd rfl hfront
    | cons t front => rfl

theorem Paired.atEnd (h : Paired c [] s s') : s.atEnd = true := by
  simp only [State.atEnd, State.peek, h.rest, List.nil_append, beq_iff_eq]
  exact c.closes

theorem Seam.outside (houtside : ¬ c.Inside front) : c.tail ≠ c.tail' ∧ front = [] := by
  constructor
  · intro htail
    exact houtside (Or.inl htail)
  · apply Classical.byContradiction
    intro hfront
    exact houtside (Or.inr hfront)

/-- The seam comes right after a semicolon. -/
theorem Paired.inside (h : Paired c front s s') (hprevious : s.previous.kind ≠ .symbol .semicolon) :
    c.Inside front := by
  rcases h.ends with htail | hlast
  · exact Or.inl htail
  · right
    intro hfront
    subst hfront
    exact hprevious (hlast _ rfl)

theorem Paired.record (h : Paired c front s s') (e : ParseError) :
    Paired c front (s.record e) (s'.record e) :=
  ⟨h.rest, h.rest', h.previous, by simp [State.record, h.errors], h.ends⟩

/-- Both runs pass the same token. -/
theorem Paired.advance (h : Paired c front s s') (hinside : c.Inside front)
    (hkind : s.peek.kind ≠ .eof) : ∃ front', Paired c front' s.advance s'.advance := by
  have hpeek := hinside.peek h
  obtain ⟨hrest, hprevious⟩ := rest_eq_advance s hkind
  obtain ⟨hrest', hprevious'⟩ := rest_eq_advance s' (by rw [hpeek]; exact hkind)
  cases front with
  | nil =>
    have hend := h.atEnd
    simp only [State.atEnd, beq_iff_eq] at hend
    exact absurd hend hkind
  | cons t front =>
    rw [h.rest, List.cons_append] at hrest
    rw [h.rest', List.cons_append] at hrest'
    obtain ⟨ht, hfront⟩ := List.cons.inj hrest
    obtain ⟨-, hfront'⟩ := List.cons.inj hrest'
    refine ⟨front, hfront.symm, hfront'.symm, ?_, ?_, h.ends.imp_right ?_⟩
    · rw [hprevious, hprevious', hpeek]
    · rw [errors_advance, errors_advance, h.errors]
    · rw [← ht, List.getLast?_cons_cons]
      exact id

theorem errorHere_eq (hpeek : s'.peek = s.peek) (fault : ParseFault) :
    s'.errorHere fault = s.errorHere fault := by
  unfold State.errorHere
  rw [hpeek]

end States

namespace Tracks
variable {c : Seam} {inner : Bool} {m n j : Nat} {p p' : Parser α} {f f' : α → Parser β}
  {s s' : State}

theorem mono (h : Tracks c inner m n p p' s s') {k l : Nat} (hm : k ≤ m) (hn : l ≤ n) :
    Tracks c inner k l p p' s s' :=
  ⟨h.reads.mono hn, fun front hpaired hinside hlength =>
    h.agrees front hpaired hinside (by omega)⟩

theorem edge (h : Tracks c true m n p p' s s') : Tracks c inner m n p p' s s' := by
  refine ⟨h.reads, ?_⟩
  intro front hpaired hinside hlength
  exact (h.agrees front hpaired hinside hlength).edge

theorem pure (a : α) : Tracks c inner m 0 (Pure.pure a) (Pure.pure a) s s' :=
  ⟨.stay (a := a) rfl, fun _ hpaired hinside _ => .ok hpaired fun _ => hinside⟩

/-- A spoilt run stays spoilt. -/
theorem spoilt_bind (hp : Spoilt (p s)) (hf : ∀ a s₁, Reads n (f a) s₁) : Spoilt ((p >>= f) s) := by
  cases hps : p s with
  | error e s₁ =>
    rw [bind_of_error hps]
    rwa [hps] at hp
  | ok a s₁ =>
    rw [bind_of_ok hps]
    rw [hps] at hp
    obtain ⟨e, he, hend⟩ := hp
    cases hfs : f a s₁ with
    | ok b s₂ => exact ⟨e, ((hf a s₁).of_ok hfs).1.errors.subset he, hend⟩
    | error e' s₂ => exact Or.inr ⟨e, ((hf a s₁).of_error hfs).errors.subset he, hend⟩

/-- One parser after the other. If the first one may end at the seam, it has to be known what
happens there. -/
theorem bind_at_edge {early : Bool} (hp : Tracks c early m j p p' s s')
    (hf : ∀ a s₁ s₁', Tracks c inner (m - j) (n - j) (f a) (f' a) s₁ s₁')
    (hedge : early = false → ∀ a s₁ s₁', c.tail ≠ c.tail' → Paired c [] s₁ s₁' →
      Agrees c inner (f a s₁) (f' a s₁')) : Tracks c inner m n (p >>= f) (p' >>= f') s s' := by
  refine ⟨hp.reads.bind fun a s₁ => (hf a s₁ s₁).reads, ?_⟩
  intro front hpaired hinside hlength
  have hagrees := hp.agrees front hpaired hinside hlength
  generalize hx : p s = x at hagrees
  generalize hx' : p' s' = x' at hagrees
  cases hagrees with
  | @ok a front₁ s₁ s₁' hpaired₁ hinner =>
    rw [bind_of_ok hx, bind_of_ok hx']
    by_cases hinside₁ : c.Inside front₁
    · obtain ⟨-, hless⟩ := hp.reads.of_ok hx
      exact (hf a s₁ s₁').agrees front₁ hpaired₁ hinside₁ (by omega)
    · obtain ⟨htail, rfl⟩ := Seam.outside hinside₁
      have hearly : early = false := by
        apply Bool.eq_false_iff.2
        intro hearly
        exact hinside₁ (hinner hearly)
      exact hedge hearly a s₁ s₁' htail hpaired₁
  | error hpaired₁ hinside₁ =>
    rw [bind_of_error hx, bind_of_error hx']
    exact .error hpaired₁ hinside₁
  | spoilt htail hspoilt =>
    rw [← hx] at hspoilt
    exact .spoilt htail (spoilt_bind hspoilt fun a s₁ => (hf a s₁ s₁).reads)

theorem bind (hp : Tracks c true m j p p' s s')
    (hf : ∀ a s₁ s₁', Tracks c inner (m - j) (n - j) (f a) (f' a) s₁ s₁') :
    Tracks c inner m n (p >>= f) (p' >>= f') s s' := by
  apply hp.bind_at_edge hf
  intro hearly
  cases hearly

/-- Nothing is read after the first parser. -/
theorem bind_pure (hp : Tracks c inner m n p p' s s') (g : α → β) :
    Tracks c inner m n (p >>= fun a => Pure.pure (g a)) (p' >>= fun a => Pure.pure (g a)) s s' := by
  apply hp.bind_at_edge
  · intro a s₁ s₁'
    rw [Nat.sub_self]
    exact .pure (g a)
  · intro hearly a s₁ s₁' _ hpaired₁
    refine .ok hpaired₁ fun hinner => ?_
    rw [hearly] at hinner
    cases hinner

end Tracks

/-- At the end of the input the parser stops with an error there. -/
def Falters (p : Parser α) : Prop :=
  ∀ s, s.atEnd = true → ∃ e s', p s = .error e s' ∧ e.location = .atEnd

theorem Falters.bind {p : Parser α} (hp : Falters p) (f : α → Parser β) : Falters (p >>= f) := by
  intro s hend
  obtain ⟨e, s', hps, he⟩ := hp s hend
  exact ⟨e, s', bind_of_error hps, he⟩

/-- A parser that falters at the seam spoils the first run. -/
theorem Falters.spoils {c : Seam} {inner : Bool} {p p' : Parser α} {s s' : State} (hp : Falters p)
    (htail : c.tail ≠ c.tail') (hpaired : Paired c [] s s') : Agrees c inner (p s) (p' s') := by
  obtain ⟨e, s₁, hrun, he⟩ := hp s hpaired.atEnd
  rw [hrun]
  exact .spoilt htail (Or.inl he)

/-! ## Reading tokens -/

section Tokens
variable {c : Seam} {inner : Bool} {m n : Nat} {s s' : State}

/-- A parser that only looks at the state. -/
theorem Tracks.look {g : State → α} {f f' : α → Parser β}
    (hg : ∀ front, Paired c front s s' → c.Inside front → g s' = g s)
    (h : Tracks c inner m n (f (g s)) (f' (g s)) s s') :
    Tracks c inner m n ((fun s => .ok (g s) s : Parser α) >>= f)
      ((fun s => .ok (g s) s : Parser α) >>= f') s s' := by
  refine ⟨h.reads, ?_⟩
  intro front hpaired hinside hlength
  change Agrees c inner (f (g s) s) (f' (g s') s')
  rw [hg front hpaired hinside]
  exact h.agrees front hpaired hinside hlength

theorem Tracks.peek {f f' : Token → Parser β}
    (h : Tracks c inner m n (f s.peek) (f' s.peek) s s') :
    Tracks c inner m n (peek >>= f) (peek >>= f') s s' :=
  .look (fun _ hpaired hinside => hinside.peek hpaired) h

theorem Tracks.previous {f f' : Token → Parser β}
    (h : Tracks c inner m n (f s.previous) (f' s.previous) s s') :
    Tracks c inner m n (previous >>= f) (previous >>= f') s s' :=
  .look (fun _ hpaired _ => hpaired.previous) h

theorem atEnd_eq (hpeek : s'.peek = s.peek) : s'.atEnd = s.atEnd := by
  unfold State.atEnd
  rw [hpeek]

theorem check_eq (hpeek : s'.peek = s.peek) (kind : Kind) : s'.check kind = s.check kind := by
  unfold State.check
  rw [atEnd_eq hpeek, hpeek]

theorem Tracks.atEnd {f f' : Bool → Parser β}
    (h : Tracks c inner m n (f s.atEnd) (f' s.atEnd) s s') :
    Tracks c inner m n (atEnd >>= f) (atEnd >>= f') s s' :=
  .look (fun _ hpaired hinside => atEnd_eq (hinside.peek hpaired)) h

theorem Tracks.check {kind : Kind} {f f' : Bool → Parser β}
    (h : Tracks c inner m n (f (s.check kind)) (f' (s.check kind)) s s') :
    Tracks c inner m n (check kind >>= f) (check kind >>= f') s s' :=
  .look (fun _ hpaired hinside => check_eq (hinside.peek hpaired) kind) h

/-- Both runs find the same two tokens, because the seam comes right after a semicolon. -/
theorem Paired.checkSecond {front : List Token} (h : Paired c front s s') {first second : Kind}
    (hfirst : first ≠ .symbol .semicolon) (hcheck : s.check first = true) :
    s'.checkSecond second = s.checkSecond second := by
  obtain ⟨hpeek, hkind⟩ := peek_kind_of_check s hcheck
  unfold State.checkSecond
  rw [h.rest, h.rest']
  rcases h.ends with htail | hlast
  · rw [htail]
  · rcases front with _ | ⟨t, _ | ⟨t', front⟩⟩
    · have hend := h.atEnd
      simp only [State.atEnd, beq_iff_eq] at hend
      exact absurd hend hkind
    · have ht : s.peek = t := by
        unfold State.peek
        rw [h.rest]
        rfl
      exact absurd (hlast t rfl) (by rw [← ht, hpeek]; exact hfirst)
    · rfl

/-- A choice that depends on the second token only if the first one is right. -/
theorem Tracks.check_two {first second : Kind} (hfirst : first ≠ .symbol .semicolon)
    {f f' : Bool → Bool → Parser β} (hsecond : ∀ b b', f' false b = f' false b')
    (h : Tracks c inner m n (f (s.check first) (s.checkSecond second))
      (f' (s.check first) (s.checkSecond second)) s s') :
    Tracks c inner m n (Grammar.check first >>= fun a => checkSecond second >>= fun b => f a b)
      (Grammar.check first >>= fun a => checkSecond second >>= fun b => f' a b) s s' := by
  refine ⟨h.reads, ?_⟩
  intro front hpaired hinside hlength
  have hagrees := h.agrees front hpaired hinside hlength
  change Agrees c inner (f (s.check first) (s.checkSecond second) s)
    (f' (s'.check first) (s'.checkSecond second) s')
  rw [check_eq (hinside.peek hpaired)]
  cases hcheck : s.check first with
  | false =>
    rw [hcheck] at hagrees
    rwa [hsecond _ (s.checkSecond second)]
  | true =>
    rw [hcheck] at hagrees
    rwa [hpaired.checkSecond hfirst hcheck]

theorem Tracks.advance (hkind : s.peek.kind ≠ .eof)
    (hinner : inner = true → s.peek.kind ≠ .symbol .semicolon) :
    Tracks c inner m 1 advance advance s s' := by
  refine ⟨.intro_ok rfl (.advance s) (Nat.le_of_eq (length_advance hkind)), ?_⟩
  intro front hpaired hinside hlength
  obtain ⟨front', hpaired'⟩ := hpaired.advance hinside hkind
  have hprevious := (rest_eq_advance s hkind).2
  change Agrees c inner (.ok s.advance.previous s.advance) (.ok s'.advance.previous s'.advance)
  rw [hpaired'.previous]
  refine .ok hpaired' fun hset => hpaired'.inside ?_
  rw [hprevious]
  exact hinner hset

theorem accept_of_check {kind : Kind} (hcheck : s.check kind = false) :
    accept kind s = .ok false s := by
  simp [accept, hcheck]

theorem accept_bind (kind : Kind) (f : Bool → Parser β) : accept kind >>= f =
    check kind >>= fun b => if b = true then Grammar.advance >>= fun _ => f true else f false := by
  funext s
  change (accept kind >>= f) s = (if s.check kind = true then
    Grammar.advance >>= fun _ => f true else f false) s
  cases hcheck : s.check kind with
  | false =>
    rw [bind_of_ok (accept_of_check hcheck)]
    rfl
  | true =>
    have haccept : accept kind s = .ok true s.advance := by simp [accept, hcheck]
    rw [bind_of_ok haccept]
    rfl

theorem expect_eq (kind : Kind) (what : Expectation) : expect kind what =
    check kind >>= fun b => if b = true then Grammar.advance else fail what := by
  funext s
  change expect kind what s = (if s.check kind = true then Grammar.advance else fail what) s
  unfold expect
  split <;> rfl

theorem Tracks.accept {kind : Kind} (hkind : kind ≠ .symbol .semicolon) {f f' : Bool → Parser β}
    (hthen : ∀ s₁ s₁', Tracks c inner (m - 1) (n - 1) (f true) (f' true) s₁ s₁')
    (helse : Tracks c inner m n (f false) (f' false) s s') :
    Tracks c inner m n (accept kind >>= f) (accept kind >>= f') s s' := by
  rw [accept_bind, accept_bind]
  apply Tracks.check
  split
  · rename_i hcheck
    obtain ⟨hpeek, hend⟩ := peek_kind_of_check s hcheck
    exact .bind (.advance hend fun _ => hpeek ▸ hkind) fun _ => hthen
  · exact helse

theorem Tracks.fail {what : Expectation} :
    Tracks c inner m n (fail what : Parser α) (Grammar.fail what) s s' := by
  refine ⟨.intro_error rfl (.refl s), ?_⟩
  intro front hpaired hinside hlength
  change Agrees c inner (.error (s.errorHere (.expected what)) s)
    (.error (s'.errorHere (.expected what)) s')
  rw [errorHere_eq (hinside.peek hpaired)]
  exact .error hpaired hinside

theorem Tracks.expect {kind : Kind} (hinner : inner = true → kind ≠ .symbol .semicolon)
    (what : Expectation) : Tracks c inner m 1 (expect kind what) (expect kind what) s s' := by
  rw [expect_eq]
  apply Tracks.check
  split
  · rename_i hcheck
    obtain ⟨hpeek, hend⟩ := peek_kind_of_check s hcheck
    exact .advance hend fun hset => hpeek ▸ hinner hset
  · exact .fail

theorem Tracks.expectSymbol {symbol : Symbol} (hsymbol : symbol ≠ .semicolon) (what : Expectation) :
    Tracks c true m 1 (expectSymbol symbol what) (Grammar.expectSymbol symbol what) s s' :=
  .expect (fun _ => by simpa using hsymbol) what

/-- A semicolon may be the last token before the seam. -/
theorem Tracks.expectSemicolon (what : Expectation) : Tracks c false m 1
    (Grammar.expectSymbol .semicolon what) (Grammar.expectSymbol .semicolon what) s s' := by
  apply Tracks.expect
  intro hset
  cases hset

theorem Tracks.identifier (what : Expectation) :
    Tracks c true m 1 (identifier what) (Grammar.identifier what) s s' :=
  .bind_pure (.expect (fun _ => by simp) what) _

theorem Tracks.report (fault : ParseFault) :
    Tracks c true m 0 (report fault) (Grammar.report fault) s s' := by
  refine ⟨.intro_ok rfl (.record s _) (Nat.le_refl _), ?_⟩
  intro front hpaired hinside hlength
  change Agrees c true (.ok () (s.record (s.errorHere fault)))
    (.ok () (s'.record (s'.errorHere fault)))
  rw [errorHere_eq (hinside.peek hpaired)]
  exact .ok (hpaired.record _) fun _ => hinside

theorem Tracks.reportAt (t : Token) (fault : ParseFault) :
    Tracks c true m 0 (reportAt t fault) (Grammar.reportAt t fault) s s' := by
  refine ⟨.intro_ok rfl (.record s _) (Nat.le_refl _), ?_⟩
  intro front hpaired hinside hlength
  exact .ok (hpaired.record _) fun _ => hinside

theorem check_of_ne {kind : Kind} (hkind : s.peek.kind ≠ kind) : s.check kind = false := by
  simp [State.check, hkind]

theorem falters_fail (what : Expectation) : Falters (fail what : Parser α) := by
  intro s hend
  refine ⟨_, _, rfl, ?_⟩
  simp only [State.atEnd, beq_iff_eq] at hend
  simp [State.errorHere, hend]

theorem check_of_atEnd (hend : s.atEnd = true) (kind : Kind) : s.check kind = false := by
  simp [State.check, hend]

theorem falters_expect (kind : Kind) (what : Expectation) : Falters (expect kind what) := by
  intro s hend
  rw [expect_eq]
  change ∃ e s', (if s.check kind = true then Grammar.advance else fail what) s = .error e s' ∧
    e.location = .atEnd
  rw [check_of_atEnd hend]
  exact falters_fail what s hend

end Tokens

end Lox.Grammar
