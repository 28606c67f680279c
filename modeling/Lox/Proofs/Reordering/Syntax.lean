import Lox.Proofs.Lockstep.Trees
import Lox.Proofs.Scoping.Sites

/-!
# Exchanging function declarations

A way leads down a tree to two statements of a body that stand next to each other. `exchange`
exchanges them if both declare functions, and leaves all else as it is. The statements of the top
level are not a body, and no way leads to two of them.
-/

set_option autoImplicit false

namespace Lox

/-- A way down a tree. Each number tells which of several parts to go to, and the last one is that
of the first of two statements. The empty way leads nowhere. -/
abbrev Way := List Nat

namespace Way

/-- The way on from a part, if the way goes there. -/
def into (part : Nat) : Way → Way
  | [] => []
  | i :: way => if i = part then way else []

/-- The way among the parts after the first one. -/
def next : Way → Way
  | (i + 1) :: way => i :: way
  | _ => []

@[simp] theorem into_nil (part : Nat) : into part [] = [] := rfl

@[simp] theorem next_nil : next [] = [] := rfl

end Way

/-- Exchanges the first two statements of a body if both declare functions. -/
def exchangeFirst : List Stmt → List Stmt
  | s :: t :: rest => if s.isFunction ∧ t.isFunction then t :: s :: rest else s :: t :: rest
  | body => body

mutual

def Expr.exchange (way : Way) : Expr → Expr
  | .literal value line => .literal value line
  | .group inner => .group (inner.exchange way)
  | .variable name slot => .variable name slot
  | .assign name value slot => .assign name (value.exchange way) slot
  | .unary op operand line => .unary op (operand.exchange way) line
  | .binary op left right line =>
    .binary op (left.exchange (way.into 0)) (right.exchange (way.into 1)) line
  | .logical op left right line =>
    .logical op (left.exchange (way.into 0)) (right.exchange (way.into 1)) line
  | .call callee arguments line =>
    .call (callee.exchange (way.into 0)) (exchangeInArguments way.next arguments) line
  | .get object name => .get (object.exchange way) name
  | .set object name value =>
    .set (object.exchange (way.into 0)) name (value.exchange (way.into 1))
  | .this line slot => .this line slot
  | .super line method slot => .super line method slot
  | .lambda decl => .lambda (decl.exchange way)

def exchangeInArguments (way : Way) : List Expr → List Expr
  | [] => []
  | e :: es => e.exchange (way.into 0) :: exchangeInArguments way.next es

def Stmt.exchange (way : Way) : Stmt → Stmt
  | .expression value => .expression (value.exchange way)
  | .print value => .print (value.exchange way)
  | .var name none => .var name none
  | .var name (some value) => .var name (some (value.exchange way))
  | .block body => .block (exchangeInBody way body)
  | .cond condition thenBranch none =>
    .cond (condition.exchange (way.into 0)) (thenBranch.exchange (way.into 1)) none
  | .cond condition thenBranch (some elseBranch) =>
    .cond (condition.exchange (way.into 0)) (thenBranch.exchange (way.into 1))
      (some (elseBranch.exchange (way.into 2)))
  | .loop condition body =>
    .loop (condition.exchange (way.into 0)) (body.exchange (way.into 1))
  | .function decl => .function (decl.exchange way)
  | .ret line none => .ret line none
  | .ret line (some value) => .ret line (some (value.exchange way))
  | .brk line => .brk line
  | .classDecl name superclass methods =>
    .classDecl name superclass (exchangeInMethods way methods)

def exchangeInBody (way : Way) : List Stmt → List Stmt
  | [] => []
  | s :: rest =>
    if way = [0] then exchangeFirst (s :: rest)
    else s.exchange (way.into 0) :: exchangeInBody way.next rest

def FunDecl.exchange (way : Way) : FunDecl → FunDecl
  | ⟨name, params, body, line⟩ => ⟨name, params, exchangeInBody way body, line⟩

def exchangeInMethods (way : Way) : List FunDecl → List FunDecl
  | [] => []
  | decl :: decls => decl.exchange (way.into 0) :: exchangeInMethods way.next decls

end

/-- Exchanges two declarations in a statement of the top level. -/
def Program.exchange (way : Way) : Program → Program
  | [] => []
  | s :: rest => s.exchange (way.into 0) :: exchange way.next rest

def Node.exchange (way : Way) : Node → Node
  | .expr e => .expr (e.exchange way)
  | .arguments es => .arguments (exchangeInArguments way es)
  | .stmt s => .stmt (s.exchange way)
  | .body ss => .body (exchangeInBody way ss)
  | .function decl => .function (decl.exchange way)
  | .methods decls => .methods (exchangeInMethods way decls)
  | .top ss => .top (Program.exchange way ss)

/-! ## What stays -/

/-- The empty way changes nothing. -/
@[simp] theorem Node.exchange_nil (node : Node) : node.exchange [] = node := by
  induction node using parts_induction with
  | h node ih =>
    cases node with
    | expr e => cases e <;> simp_all [parts, Expr.parts, exchange, Expr.exchange]
    | stmt s =>
      cases s with
      | var name value | ret line value =>
        cases value <;> simp_all [parts, Stmt.parts, exchange, Stmt.exchange]
      | cond condition thenBranch elseBranch =>
        cases elseBranch <;> simp_all [parts, Stmt.parts, exchange, Stmt.exchange]
      | _ => simp_all [parts, Stmt.parts, exchange, Stmt.exchange]
    | arguments es => cases es <;> simp_all [parts, exchange, exchangeInArguments]
    | body ss =>
      rcases ss with _ | ⟨s, rest⟩
      · simp [exchange, exchangeInBody]
      · cases s <;> simp_all [parts, exchange, exchangeInBody, Stmt.exchange]
    | top ss => cases ss <;> simp_all [parts, exchange, Program.exchange]
    | methods decls => cases decls <;> simp_all [parts, exchange, exchangeInMethods]
    | function decl =>
      obtain ⟨name, params, body, line⟩ := decl
      simp_all [parts, exchange, FunDecl.exchange]

@[simp] theorem FunDecl.exchange_nil (decl : FunDecl) : decl.exchange [] = decl :=
  Node.function.inj (Node.exchange_nil (.function decl))

@[simp] theorem Stmt.exchange_nil (s : Stmt) : s.exchange [] = s :=
  Node.stmt.inj (Node.exchange_nil (.stmt s))

@[simp] theorem exchangeInBody_nil (body : List Stmt) : exchangeInBody [] body = body :=
  Node.body.inj (Node.exchange_nil (.body body))

section Kept
variable (way : Way)

@[simp] theorem FunDecl.name_exchange (decl : FunDecl) : (decl.exchange way).name = decl.name := by
  cases decl
  rfl

@[simp] theorem Stmt.isFunction_exchange (s : Stmt) :
    (s.exchange way).isFunction = s.isFunction := by
  cases s with
  | var name value | ret line value => cases value <;> rfl
  | cond condition thenBranch elseBranch => cases elseBranch <;> rfl
  | _ => rfl

end Kept

/-! ## Bodies -/

theorem exchangeInBody_cons {way : Way} (hway : way ≠ [0]) (s : Stmt) (rest : List Stmt) :
    exchangeInBody way (s :: rest) =
      s.exchange (way.into 0) :: exchangeInBody way.next rest := by
  rw [exchangeInBody, if_neg hway]

theorem exists_functions {ss : List Stmt}
    (h : ∃ kinds, ss.map Stmt.isFunction = true :: true :: kinds) :
    ∃ f g rest, ss = .function f :: .function g :: rest := by
  obtain ⟨kinds, hkinds⟩ := h
  rcases ss with _ | ⟨s, _ | ⟨t, rest⟩⟩
  · cases hkinds
  · simp at hkinds
  · simp only [List.map_cons, List.cons.injEq] at hkinds
    cases s with
    | function f =>
      cases t with
      | function g => exact ⟨f, g, rest, rfl⟩
      | _ => cases hkinds.2.1
    | _ => cases hkinds.1

theorem exchangeInBody_first {ss : List Stmt}
    (h : ¬ ∃ kinds, ss.map Stmt.isFunction = true :: true :: kinds) :
    exchangeInBody [0] ss = ss := by
  rcases ss with _ | ⟨s, _ | ⟨t, rest⟩⟩
  · rfl
  · rfl
  · rw [exchangeInBody, if_pos rfl, exchangeFirst, if_neg]
    rintro ⟨hs, ht⟩
    exact h ⟨rest.map Stmt.isFunction, by simp only [List.map_cons, hs, ht]⟩

/-- Either two functions are exchanged, or the change is in the first statement or among the
others. -/
theorem exchangeInBody_cases (way : Way) (s : Stmt) (rest : List Stmt) :
    (∃ f g more, s :: rest = .function f :: .function g :: more ∧ way ≠ [] ∧
      exchangeInBody way (s :: rest) = .function g :: .function f :: more) ∨
    ∃ first later : Way, (way = [] → first = [] ∧ later = []) ∧
      exchangeInBody way (s :: rest) = s.exchange first :: exchangeInBody later rest := by
  by_cases hway : way = [0]
  · subst hway
    by_cases hfirst : ∃ kinds, (s :: rest).map Stmt.isFunction = true :: true :: kinds
    · obtain ⟨f, g, more, hbody⟩ := exists_functions hfirst
      rw [hbody]
      exact Or.inl ⟨f, g, more, rfl, by simp, rfl⟩
    · rw [exchangeInBody_first hfirst]
      exact Or.inr ⟨[], [], fun _ => ⟨rfl, rfl⟩, by simp⟩
  · rw [exchangeInBody_cons hway]
    exact Or.inr ⟨_, _, by rintro rfl; exact ⟨rfl, rfl⟩, rfl⟩

/-! ## Distinct names -/

/-- Functions that stand directly in a body have different names. -/
def Node.DistinctFunctions : Node → Prop
  | .body ss => (functionNames ss).Nodup
  | _ => True

/-- The functions of each body in the node have different names. -/
abbrev Tidy : Node → Prop :=
  Node.Throughout Node.DistinctFunctions

/-- The second node is the first one, or has two functions exchanged that have different names. -/
def Reordered (n n' : Node) : Prop :=
  ∃ way : Way, n' = n.exchange way ∧ (way ≠ [] → Tidy n)

namespace Reordered
variable {n part : Node} {way : Way}

theorem refl (n : Node) : Reordered n n :=
  ⟨[], n.exchange_nil.symm, fun h => absurd rfl h⟩

/-- The way goes on in a part, or does not go there. -/
theorem of_part {way' : Way} (hn : way ≠ [] → Tidy n) (hpart : part ∈ n.parts)
    (hway : way = [] → way' = []) : Reordered part (part.exchange way') :=
  ⟨way', rfl, fun hne => (hn (hne ∘ hway)).part hpart⟩

theorem same (hn : way ≠ [] → Tidy n) (hpart : part ∈ n.parts) :
    Reordered part (part.exchange way) :=
  of_part hn hpart id

theorem into (i : Nat) (hn : way ≠ [] → Tidy n) (hpart : part ∈ n.parts) :
    Reordered part (part.exchange (way.into i)) :=
  of_part hn hpart (by rintro rfl; rfl)

theorem next (hn : way ≠ [] → Tidy n) (hpart : part ∈ n.parts) :
    Reordered part (part.exchange way.next) :=
  of_part hn hpart (by rintro rfl; rfl)

end Reordered

/-! ## The form of the trees -/

/-- The nodes are the same but for an exchange, and there is no extra scope around them. -/
def ReorderedAt (g : Gap) (n n' : Node) : Prop :=
  g = none ∧ Reordered n n'

section Form
variable {way : Way}

theorem Expr.alike_exchange {e : Expr} (htidy : way ≠ [] → Tidy (.expr e)) :
    Alike ReorderedAt (.expr e) (.expr (e.exchange way)) none := by
  cases e with
  | literal value line => exact .literal value line
  | group inner => exact .group ⟨rfl, .same htidy (.head _)⟩
  | «variable» name slot =>
    have h := Alike.variable (T := ReorderedAt) (g := none) name slot
    rwa [Gap.slot_none] at h
  | assign name value slot =>
    have h := Alike.assign (T := ReorderedAt) (g := none) name slot
      ⟨rfl, .same htidy (.head _)⟩
    rwa [Gap.slot_none] at h
  | unary op operand line => exact .unary op line ⟨rfl, .same htidy (.head _)⟩
  | binary op left right line =>
    exact .binary op line ⟨rfl, .into 0 htidy (.head _)⟩ ⟨rfl, .into 1 htidy (.tail _ (.head _))⟩
  | logical op left right line =>
    exact .logical op line ⟨rfl, .into 0 htidy (.head _)⟩ ⟨rfl, .into 1 htidy (.tail _ (.head _))⟩
  | call callee arguments line =>
    exact .call line ⟨rfl, .into 0 htidy (.head _)⟩ ⟨rfl, .next htidy (.tail _ (.head _))⟩
  | get object name => exact .get name ⟨rfl, .same htidy (.head _)⟩
  | set object name value =>
    exact .set name ⟨rfl, .into 0 htidy (.head _)⟩ ⟨rfl, .into 1 htidy (.tail _ (.head _))⟩
  | this line slot =>
    have h := Alike.this (T := ReorderedAt) (g := none) line slot
    rwa [Gap.slot_none] at h
  | super line method slot =>
    have h : Alike ReorderedAt (.expr (.super line method slot)) _ none :=
      .super line method (by simp)
    rwa [Gap.slot_none] at h
  | lambda decl => exact .lambda ⟨rfl, .same htidy (.head _)⟩

theorem Stmt.alike_exchange {s : Stmt} (htidy : way ≠ [] → Tidy (.stmt s)) :
    Alike ReorderedAt (.stmt s) (.stmt (s.exchange way)) none := by
  cases s with
  | expression value => exact .expression ⟨rfl, .same htidy (.head _)⟩
  | print value => exact .print ⟨rfl, .same htidy (.head _)⟩
  | var name value =>
    cases value with
    | none => exact .var name (by simp)
    | some value => exact .varWith name (by simp) ⟨rfl, .same htidy (.head _)⟩
  | block body => exact .block ⟨rfl, .same htidy (.head _)⟩
  | cond condition thenBranch elseBranch =>
    cases elseBranch with
    | none =>
      exact .cond ⟨rfl, .into 0 htidy (.head _)⟩ ⟨rfl, .into 1 htidy (.tail _ (.head _))⟩
    | some elseBranch =>
      exact .condElse ⟨rfl, .into 0 htidy (.head _)⟩ ⟨rfl, .into 1 htidy (.tail _ (.head _))⟩
        ⟨rfl, .into 2 htidy (.tail _ (.tail _ (.head _)))⟩
  | loop condition body =>
    exact .loop ⟨rfl, .into 0 htidy (.head _)⟩ ⟨rfl, .into 1 htidy (.tail _ (.head _))⟩
  | function decl => exact .functionDecl (by simp) ⟨rfl, .same htidy (.head _)⟩
  | ret line value =>
    cases value with
    | none => exact .ret line
    | some value => exact .retWith line ⟨rfl, .same htidy (.head _)⟩
  | brk line => exact .brk line
  | classDecl name superclass methods =>
    have hmethods :
        ReorderedAt none (.methods methods) (.methods (exchangeInMethods way methods)) :=
      ⟨rfl, .same htidy (.head _)⟩
    rcases superclass with _ | ⟨parent, slot⟩
    · exact .classDecl name (by simp) hmethods
    · have h := Alike.subclassDecl (T := ReorderedAt) (g := none) name parent slot (by simp)
        ⟨rfl, by rw [Gap.slot_none]; exact .refl _⟩ hmethods
      rwa [Gap.slot_none] at h

end Form

/-- An exchange changes the form of bodies only. -/
theorem Reordered.alike {n n' : Node} (hn : n.isSequence = false) (h : Reordered n n') :
    Alike ReorderedAt n n' none := by
  obtain ⟨way, rfl, htidy⟩ := h
  cases n with
  | expr e => exact Expr.alike_exchange htidy
  | stmt s => exact Stmt.alike_exchange htidy
  | arguments es =>
    cases es with
    | nil => exact .noArgument
    | cons e es =>
      exact .argument ⟨rfl, .into 0 htidy (.head _)⟩ ⟨rfl, .next htidy (.tail _ (.head _))⟩
  | function decl =>
    obtain ⟨name, params, body, line⟩ := decl
    exact .code name params line ⟨rfl, .same htidy (.head _)⟩
  | methods decls =>
    cases decls with
    | nil => exact .noMethod
    | cons decl decls =>
      exact .method ⟨rfl, .into 0 htidy (.head _)⟩ ⟨rfl, .next htidy (.tail _ (.head _))⟩
  | body | top => cases hn

theorem Reordered.turns {body body' : List Stmt} (h : Reordered (.body body) (.body body')) :
    List.Forall₂ (SameTurn ReorderedAt none) body body' := by
  obtain ⟨way, heq, htidy⟩ := h
  obtain rfl := Node.body.inj heq
  clear heq
  induction body generalizing way with
  | nil => exact .nil
  | cons s rest ih =>
    rcases exchangeInBody_cases way s rest with
      ⟨f, g, more, hfunctions, hway, hexchange⟩ | ⟨first, later, hway, hexchange⟩
    · rw [hexchange, hfunctions]
      have hmore : List.Forall₂ (SameTurn ReorderedAt none) more more :=
        List.forall₂_same.2 fun s _ => Or.inr ⟨rfl, .refl (.stmt s)⟩
      exact .cons (Or.inl ⟨rfl, rfl⟩) (.cons (Or.inl ⟨rfl, rfl⟩) hmore)
    · rw [hexchange]
      cases hs : s.isFunction with
      | true =>
        have hrest : later ≠ [] → Tidy (.body rest) := by
          cases s with
          | function decl =>
            exact fun hlater => (htidy fun hnil => hlater (hway hnil).2).part (.tail _ (.head _))
          | _ => cases hs
        exact .cons (Or.inl ⟨hs, by simp [hs]⟩) (ih later hrest)
      | false =>
        have hparts := Node.parts_body_cons hs rest
        have hstmt : Reordered (.stmt s) (.stmt (s.exchange first)) :=
          .of_part htidy (by simp [hparts]) fun hnil => (hway hnil).1
        have hrest : later ≠ [] → Tidy (.body rest) := fun hlater =>
          (htidy fun hnil => hlater (hway hnil).2).part (by simp [hparts])
        exact .cons (Or.inr ⟨rfl, hstmt⟩) (ih later hrest)

theorem Reordered.top_statements {ss ss' : List Stmt} (h : Reordered (.top ss) (.top ss')) :
    List.Forall₂ (fun s s' => ReorderedAt none (.stmt s) (.stmt s')) ss ss' := by
  obtain ⟨way, heq, htidy⟩ := h
  obtain rfl := Node.top.inj heq
  clear heq
  induction ss generalizing way with
  | nil => exact .nil
  | cons s rest ih =>
    have hrest : way.next ≠ [] → Tidy (.top rest) := fun hnext =>
      (htidy fun hnil => hnext (by rw [hnil]; rfl)).part (.tail _ (.head _))
    exact .cons ⟨rfl, .into 0 htidy (.head _)⟩ (ih way.next hrest)

end Lox
