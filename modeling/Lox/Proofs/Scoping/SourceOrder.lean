import Lox.Proofs.Grammar.ErrorOrder

/-!
# Trees in source order

The tokens of a text come in the order of their lines, and a derivation takes them in that order. So
in the tree of a text no line comes after a later one, when the tree is read from left to right. Only
the increment of a loop is not where it was: it stood before the body.
-/

set_option autoImplicit false

namespace Lox

/-! ## Lines -/

/-- The lines do not decrease, and lie between two others. -/
def Rising : Nat → List Nat → Nat → Prop
  | lo, [], hi => lo ≤ hi
  | lo, line :: lines, hi => lo ≤ line ∧ Rising line lines hi

namespace Rising
variable {lo mid hi : Nat} {lines lines' : List Nat}

theorem lower {lo' : Nat} (hlo : lo' ≤ lo) (h : Rising lo lines hi) : Rising lo' lines hi := by
  cases lines with
  | nil => exact Nat.le_trans hlo h
  | cons line lines => exact ⟨Nat.le_trans hlo h.1, h.2⟩

theorem le (h : Rising lo lines hi) : lo ≤ hi := by
  induction lines generalizing lo with
  | nil => exact h
  | cons line lines ih => exact Nat.le_trans h.1 (ih h.2)

theorem drop (h : Rising lo (lines ++ lines') hi) : Rising lo lines' hi := by
  induction lines generalizing lo with
  | nil => exact h
  | cons line lines ih => exact (ih h.2).lower h.1

theorem singleton {line : Nat} (hlo : lo ≤ line) : Rising lo [line] line :=
  ⟨hlo, Nat.le_refl line⟩

end Rising

/-- The lines in a node that a rule can be about, apart from those in its parts. -/
def Node.ownLines : Node → List Nat
  | .expr (.this line _) | .expr (.super line _ _) => [line]
  | .stmt (.ret line _) | .stmt (.brk line) => [line]
  | .stmt (.var name _) => [name.line]
  | .stmt (.function decl) => decl.name.toList.map Ident.line
  | .stmt (.classDecl name superclass _) =>
    name.line :: superclass.toList.map fun parent => parent.1.line
  | .function decl => (decl.name.toList ++ decl.params).map Ident.line
  | _ => []

/-! ## Trees -/

/-- The nodes are in source order, one after the other and each one inside, from one line to
another. -/
inductive LaidOut : Nat → List Node → Nat → Prop where
  | nil {lo hi : Nat} : lo ≤ hi → LaidOut lo [] hi
  | cons {lo own mid hi : Nat} {n : Node} {rest : List Node} :
      Rising lo n.ownLines own → LaidOut own n.parts mid → LaidOut mid rest hi →
      LaidOut lo (n :: rest) hi
  /-- The increment of a loop stands before the body. -/
  | increment {lo mid hi : Nat} {condition increment : Expr} {body : Stmt} {rest : List Node} :
      body.isDeclaration = false →
      LaidOut lo [.expr condition, .expr increment, .stmt body] mid → LaidOut mid rest hi →
      LaidOut lo (.stmt (.loop condition (.block [body, .expression increment])) :: rest) hi

namespace LaidOut
variable {lo own mid hi : Nat} {n : Node} {ns ms : List Node}

theorem lower {lo' : Nat} (hlo : lo' ≤ lo) (h : LaidOut lo ns hi) : LaidOut lo' ns hi := by
  induction h with
  | nil hle => exact .nil (Nat.le_trans hlo hle)
  | cons hown hparts hrest _ _ => exact .cons (hown.lower hlo) hparts hrest
  | increment hbody _ hrest ih _ => exact .increment hbody (ih hlo) hrest

theorem append (h : LaidOut lo ns mid) (h' : LaidOut mid ms hi) : LaidOut lo (ns ++ ms) hi := by
  induction h with
  | nil hle => exact h'.lower hle
  | cons hown hparts _ _ ih => exact .cons hown hparts (ih h')
  | increment hbody hparts _ _ ih => exact .increment hbody hparts (ih h')

theorem le (h : LaidOut lo ns hi) : lo ≤ hi := by
  induction h with
  | nil hle => exact hle
  | cons hown _ _ ih ih' => exact Nat.le_trans hown.le (Nat.le_trans ih ih')
  | increment _ _ _ ih ih' => exact Nat.le_trans ih ih'

/-- A node around its parts. -/
theorem around (hown : Rising lo n.ownLines own) (hparts : LaidOut own n.parts hi) :
    LaidOut lo [n] hi :=
  .cons hown hparts (.nil (Nat.le_refl hi))

/-- A node with no lines of its own. -/
theorem bare (hown : n.ownLines = []) (hparts : LaidOut lo n.parts hi) : LaidOut lo [n] hi :=
  .around (hown ▸ Nat.le_refl lo) hparts

/-- A node without parts. -/
theorem leaf (hparts : n.parts = []) (hown : Rising lo n.ownLines hi) : LaidOut lo [n] hi :=
  .around hown (hparts ▸ .nil (Nat.le_refl hi))

theorem uncons (h : LaidOut lo (n :: ns) hi) : ∃ mid, LaidOut lo [n] mid ∧ LaidOut mid ns hi := by
  cases h with
  | cons hown hparts hrest => exact ⟨_, .around hown hparts, hrest⟩
  | increment hbody hparts hrest =>
    exact ⟨_, .increment hbody hparts (.nil (Nat.le_refl _)), hrest⟩

theorem raise {hi' : Nat} (h : LaidOut lo ns hi) (hhi : hi ≤ hi') : LaidOut lo ns hi' := by
  have hraised := h.append (.nil hhi)
  rwa [List.append_nil] at hraised

theorem inside (h : LaidOut lo [n] hi) (hn : ∀ condition body, n ≠ .stmt (.loop condition body)) :
    ∃ own, Rising lo n.ownLines own ∧ LaidOut own n.parts hi := by
  cases h with
  | cons hown hparts hnil => exact ⟨_, hown, hparts.raise hnil.le⟩
  | increment => exact absurd rfl (hn _ _)

theorem body_cons {s : Stmt} {rest : List Stmt} (hs : LaidOut lo [.stmt s] mid)
    (hrest : LaidOut mid [.body rest] hi) : LaidOut lo [.body (s :: rest)] hi := by
  by_cases hfunction : s.isFunction = true
  · cases s with
    | function decl =>
      obtain ⟨own, hown, hdecl⟩ := hs.inside (by simp)
      exact .bare rfl ((hdecl.lower hown.le).append hrest)
    | _ => cases hfunction
  · apply LaidOut.bare rfl
    rw [Node.parts_body_cons (Bool.not_eq_true _ ▸ hfunction)]
    exact hs.append hrest

end LaidOut

/-! ## Derivations -/

namespace Grammar

/-- The tokens come in the order of their lines, from a given line on. -/
def Upcoming (lo : Nat) (ts : List Token) : Prop :=
  (lo :: ts.map Token.line).Pairwise (· ≤ ·)

theorem Upcoming.pass {lo : Nat} {t : Token} {ts : List Token} (h : Upcoming lo (t :: ts)) :
    lo ≤ t.line ∧ Upcoming t.line ts := by
  obtain ⟨hlo, hsorted⟩ := List.pairwise_cons.1 h
  exact ⟨hlo _ List.mem_cons_self, hsorted⟩

/-- A token whose line nothing depends on. -/
theorem Upcoming.skip {lo : Nat} {t : Token} {ts : List Token} (h : Upcoming lo (t :: ts)) :
    Upcoming lo ts := by
  obtain ⟨hlo, hsorted⟩ := List.pairwise_cons.1 h
  exact List.pairwise_cons.2
    ⟨fun line hline => hlo line (List.mem_cons_of_mem _ hline), hsorted.tail⟩

/-- What a tree has between two lines. -/
def Tree.LaidOut (lo hi : Nat) : Tree → Prop
  | .expr e => Lox.LaidOut lo [.expr e] hi
  | .exprs es => Lox.LaidOut lo [.arguments es] hi
  | .optional e => Lox.LaidOut lo (e.toList.map .expr) hi
  | .suffixes fs => ∀ e start, Lox.LaidOut start [.expr e] lo →
      Lox.LaidOut start [.expr (applySuffixes e fs)] hi
  | .stmt s _ => Lox.LaidOut lo [.stmt s] hi
  | .stmts ss => Lox.LaidOut lo [.body ss] hi ∧ Lox.LaidOut lo [.top ss] hi
  | .init s => Lox.LaidOut lo (s.toList.map .stmt) hi
  | .code ps body => ∃ mid, Rising lo (ps.map Ident.line) mid ∧ Lox.LaidOut mid [.body body] hi
  | .params names => Rising lo (names.map Ident.line) hi
  | .methods ds => Lox.LaidOut lo [.methods ds] hi

theorem Operator.laidOut {p : Precedence} {k : Kind} {node : Expr → Expr → Nat → Expr}
    (h : Operator p k node) {left right : Expr} {lo hi : Nat}
    (hoperands : Lox.LaidOut lo [.expr left, .expr right] hi) (line : Nat) :
    Lox.LaidOut lo [.expr (node left right line)] hi := by
  cases h <;> exact .bare rfl hoperands

theorem laidOut_forTree {line : Nat} {init : Option Stmt} {condition increment : Option Expr}
    {body : Stmt} {lo lo₁ lo₂ lo₃ hi : Nat} (hinit : Lox.LaidOut lo (init.toList.map .stmt) lo₁)
    (hcondition : Lox.LaidOut lo₁ (condition.toList.map .expr) lo₂)
    (hincrement : Lox.LaidOut lo₂ (increment.toList.map .expr) lo₃)
    (hbody : Lox.LaidOut lo₃ [.stmt body] hi) (hdeclares : body.isDeclaration = false) :
    Lox.LaidOut lo [.stmt (forTree line init condition increment body)] hi := by
  have hcondition' :
      Lox.LaidOut lo₁ [.expr (condition.getD (.literal (.bool true) line))] lo₂ := by
    cases condition with
    | some e => exact hcondition
    | none =>
      cases hcondition with
      | nil hle => exact .leaf rfl hle
  have hloop : Lox.LaidOut lo₁ [.stmt (.loop (condition.getD (.literal (.bool true) line))
      (withIncrement body increment))] hi := by
    cases increment with
    | some e =>
      exact .increment hdeclares (hcondition'.append (hincrement.append hbody))
        (.nil (Nat.le_refl hi))
    | none => exact .bare rfl (hcondition'.append (hincrement.append hbody))
  cases init with
  | none => exact hinit.append hloop
  | some s =>
    have hnone : Lox.LaidOut hi [.body []] hi := .leaf rfl (Nat.le_refl hi)
    exact .bare rfl (LaidOut.body_cons hinit (hloop.body_cons hnone))

theorem Derives.laidOut {nearest : Bool} {N : Nonterminal} {ts rest : List Token} {tree : Tree}
    (h : Derives nearest N ts tree rest) {lo : Nat} (hts : Upcoming lo ts) :
    ∃ hi, tree.LaidOut lo hi ∧ Upcoming hi rest := by
  induction h generalizing lo with
  | program _ _ ih =>
    obtain ⟨hi, hss, hrest⟩ := ih hts
    exact ⟨hi, hss, hrest.skip⟩
  | noDeclaration =>
    exact ⟨lo, ⟨.leaf rfl (Nat.le_refl lo), .leaf rfl (Nat.le_refl lo)⟩, hts⟩
  | moreDeclarations _ _ ih ih' =>
    obtain ⟨mid, hs, hmid⟩ := ih hts
    obtain ⟨hi, hss, hrest⟩ := ih' hmid
    exact ⟨hi, ⟨LaidOut.body_cons hs hss.1, .bare rfl (LaidOut.append hs hss.2)⟩, hrest⟩
  | classDecl _ _ _ _ _ ih =>
    obtain ⟨hname, hts⟩ := hts.skip.pass
    obtain ⟨hi, hds, hrest⟩ := ih hts.skip
    exact ⟨hi, .around (.singleton hname) hds, hrest.skip⟩
  | subclassDecl _ _ _ _ _ _ _ ih =>
    obtain ⟨hname, hts⟩ := hts.skip.pass
    obtain ⟨hparent, hts⟩ := hts.skip.pass
    obtain ⟨hi, hds, hrest⟩ := ih hts.skip
    exact ⟨hi, .around ⟨hname, .singleton hparent⟩ hds, hrest.skip⟩
  | noMethod => exact ⟨lo, .leaf rfl (Nat.le_refl lo), hts⟩
  | @moreMethods name _ _ _ params body _ _ _ _ ih ih' =>
    obtain ⟨hname, hts⟩ := hts.pass
    obtain ⟨mid, ⟨own, hparams, hbody⟩, hmid⟩ := ih hts
    obtain ⟨hi, hds, hrest⟩ := ih' hmid
    have hdecl : Lox.LaidOut lo [.function ⟨some (ident name), params, body, name.line⟩] mid :=
      .around ⟨hname, hparams⟩ hbody
    exact ⟨hi, .bare rfl (hdecl.append hds), hrest⟩
  | funDecl _ _ _ ih =>
    obtain ⟨hname, hts⟩ := hts.skip.pass
    obtain ⟨hi, ⟨own, hparams, hbody⟩, hrest⟩ := ih hts
    exact ⟨hi, .around (.singleton hname) (.around ⟨Nat.le_refl _, hparams⟩ hbody), hrest⟩
  | codeWithout _ _ _ ih =>
    obtain ⟨hi, hbody, hrest⟩ := ih hts.skip.skip
    exact ⟨hi, ⟨lo, Nat.le_refl lo, hbody.1⟩, hrest⟩
  | codeWith _ _ _ _ _ ih ih' =>
    obtain ⟨mid, hparams, hmid⟩ := ih hts.skip
    obtain ⟨hi, hbody, hrest⟩ := ih' hmid.skip
    exact ⟨hi, ⟨mid, hparams, hbody.1⟩, hrest⟩
  | lastParameter _ =>
    obtain ⟨hname, hrest⟩ := hts.pass
    exact ⟨_, .singleton hname, hrest⟩
  | moreParameters _ _ _ ih =>
    obtain ⟨hname, hts⟩ := hts.pass
    obtain ⟨hi, hparams, hrest⟩ := ih hts.skip
    exact ⟨hi, ⟨hname, hparams⟩, hrest⟩
  | declaredVar _ ih | statement _ ih | expressed _ ih | operation _ ih | called _ ih =>
    exact ih hts
  | var _ _ _ =>
    obtain ⟨hname, hts⟩ := hts.skip.pass
    exact ⟨_, .leaf rfl (.singleton hname), hts.skip⟩
  | varWith _ _ _ _ _ ih =>
    obtain ⟨hname, hts⟩ := hts.skip.pass
    obtain ⟨hi, he, hrest⟩ := ih hts.skip
    exact ⟨hi, .around (.singleton hname) he, hrest.skip⟩
  | exprStmt _ _ ih =>
    obtain ⟨hi, he, hrest⟩ := ih hts
    exact ⟨hi, .bare rfl he, hrest.skip⟩
  | forStmt _ _ _ _ _ _ _ hbody ih₁ ih₂ ih₃ ih₄ =>
    obtain ⟨lo₁, hinit, hts₁⟩ := ih₁ hts.skip.skip
    obtain ⟨lo₂, hcondition, hts₂⟩ := ih₂ hts₁
    obtain ⟨lo₃, hincrement, hts₃⟩ := ih₃ hts₂.skip
    obtain ⟨hi, hlaid, hrest⟩ := ih₄ hts₃.skip
    exact ⟨hi, laidOut_forTree hinit hcondition hincrement hlaid hbody.isDeclaration_eq_false,
      hrest⟩
  | noInit _ => exact ⟨lo, .nil (Nat.le_refl lo), hts.skip⟩
  | varInit _ ih | exprInit _ ih | present _ ih => exact ih hts
  | ifThen _ _ _ _ _ ih ih' | whileStmt _ _ _ _ _ ih ih' =>
    obtain ⟨mid, he, hmid⟩ := ih hts.skip.skip
    obtain ⟨hi, hs, hrest⟩ := ih' hmid.skip
    exact ⟨hi, .bare rfl (LaidOut.append he hs), hrest⟩
  | ifElse _ _ _ _ _ _ _ _ ih ih' ih'' =>
    obtain ⟨mid, he, hmid⟩ := ih hts.skip.skip
    obtain ⟨mid', hs, hmid'⟩ := ih' hmid.skip
    obtain ⟨hi, hs', hrest⟩ := ih'' hmid'.skip
    exact ⟨hi, .bare rfl (LaidOut.append he (LaidOut.append hs hs')), hrest⟩
  | printStmt _ _ _ ih =>
    obtain ⟨hi, he, hrest⟩ := ih hts.skip
    exact ⟨hi, .bare rfl he, hrest.skip⟩
  | @returnStmt _ _ _ _ e _ _ _ ih =>
    obtain ⟨hkw, hts⟩ := hts.pass
    obtain ⟨hi, he, hrest⟩ := ih hts
    cases e <;> exact ⟨hi, .around (.singleton hkw) he, hrest.skip⟩
  | breakStmt _ _ =>
    obtain ⟨hkw, hts⟩ := hts.pass
    exact ⟨_, .leaf rfl (.singleton hkw), hts.skip⟩
  | blockStmt _ ih =>
    obtain ⟨hi, hss, hrest⟩ := ih hts
    exact ⟨hi, .bare rfl hss.1, hrest⟩
  | block _ _ _ ih =>
    obtain ⟨hi, hss, hrest⟩ := ih hts.skip
    exact ⟨hi, hss, hrest.skip⟩
  | absent => exact ⟨lo, .nil (Nat.le_refl lo), hts⟩
  | assign _ _ _ ih =>
    obtain ⟨hi, he, hrest⟩ := ih hts.skip.skip
    exact ⟨hi, .bare rfl he, hrest⟩
  | set _ _ _ _ _ ih ih' =>
    obtain ⟨mid, hobject, hmid⟩ := ih hts
    obtain ⟨hi, he, hrest⟩ := ih' hmid.skip.skip.skip
    exact ⟨hi, .bare rfl (LaidOut.append hobject he), hrest⟩
  | binary _ _ ih ih' | call _ _ ih ih' =>
    obtain ⟨mid, he, hmid⟩ := ih hts
    obtain ⟨hi, hfs, hrest⟩ := ih' hmid
    exact ⟨hi, hfs _ lo he, hrest⟩
  | noOperation | noSuffix => exact ⟨lo, fun _ _ he => he, hts⟩
  | moreOperations hop _ _ ih ih' =>
    obtain ⟨mid, hright, hmid⟩ := ih hts.skip
    obtain ⟨hi, hfs, hrest⟩ := ih' hmid
    exact ⟨hi, fun _ start he => hfs _ start (hop.laidOut (LaidOut.append he hright) _), hrest⟩
  | unary _ _ ih =>
    obtain ⟨hi, he, hrest⟩ := ih hts.skip
    exact ⟨hi, .bare rfl he, hrest⟩
  | callWithout _ _ _ ih =>
    obtain ⟨hi, hfs, hrest⟩ := ih hts.skip.skip
    have hnone : Lox.LaidOut lo [.arguments []] lo := .leaf rfl (Nat.le_refl lo)
    exact ⟨hi, fun _ start he => hfs _ start (.bare rfl (he.append hnone)), hrest⟩
  | callWith _ _ _ _ _ ih ih' =>
    obtain ⟨mid, hes, hmid⟩ := ih hts.skip
    obtain ⟨hi, hfs, hrest⟩ := ih' hmid.skip
    exact ⟨hi, fun _ start he => hfs _ start (.bare rfl (he.append hes)), hrest⟩
  | get _ _ _ ih =>
    obtain ⟨hi, hfs, hrest⟩ := ih hts.skip.skip
    exact ⟨hi, fun _ start he => hfs _ start (.bare rfl he), hrest⟩
  | lastArgument _ ih =>
    obtain ⟨hi, he, hrest⟩ := ih hts
    have hnone : Lox.LaidOut hi [.arguments []] hi := .leaf rfl (Nat.le_refl hi)
    exact ⟨hi, .bare rfl (LaidOut.append he hnone), hrest⟩
  | moreArguments _ _ _ ih ih' =>
    obtain ⟨mid, he, hmid⟩ := ih hts
    obtain ⟨hi, hes, hrest⟩ := ih' hmid.skip
    exact ⟨hi, .bare rfl (LaidOut.append he hes), hrest⟩
  | literal _ | name _ => exact ⟨lo, .leaf rfl (Nat.le_refl lo), hts.skip⟩
  | this _ =>
    obtain ⟨hkw, hrest⟩ := hts.pass
    exact ⟨_, .leaf rfl (.singleton hkw), hrest⟩
  | super _ _ _ =>
    obtain ⟨hkw, hts⟩ := hts.pass
    exact ⟨_, .leaf rfl (.singleton hkw), hts.skip.skip⟩
  | group _ _ _ ih =>
    obtain ⟨hi, he, hrest⟩ := ih hts.skip
    exact ⟨hi, .bare rfl he, hrest.skip⟩
  | lambda _ _ ih =>
    obtain ⟨hi, ⟨own, hparams, hbody⟩, hrest⟩ := ih hts.skip
    exact ⟨hi, .bare rfl (.around hparams hbody), hrest⟩

end Grammar

theorem laidOut_of_parsed_program {source : String} {p : Program}
    (h : Grammar.parseProgram (tokens source) = .ok p) : ∃ hi, LaidOut 0 [.top p] hi := by
  have hupcoming : Grammar.Upcoming 0 (tokens source) :=
    List.pairwise_cons.2
      ⟨fun line _ => Nat.zero_le line, List.pairwise_map.2 (Grammar.tokens_sorted source)⟩
  obtain ⟨hi, hlaid, -⟩ := (Grammar.derives_of_parsed_program h).laidOut hupcoming
  exact ⟨hi, hlaid.2⟩

end Lox
