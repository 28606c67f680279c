import Lox.Number.Reader
import Lox.Proofs.Lines.Syntax
import Lox.Proofs.Number.Numerals
import Lox.Proofs.Syntax.Forms
import Lox.Proofs.Token.LongestMatch
import Lox.Syntax.Printer

/-!
# Printed trees

The printed text of a tree is that of a form. Most forms start with a word that says what they
stand for, and names stand in places of their own only, so that a variable may well be called
`group` or `call`. From the form of a tree the tree can be read back except for its lines, if no
literal in it can be mistaken for something else: strings are printed without their quotes, and
infinity as if it were a name.
-/

set_option autoImplicit false

namespace Lox

open Piece

/-! ## Forms of trees -/

mutual

def Expr.form : Expr → Form
  | .literal value _ => .word value.render
  | .group inner => .list [.word "group", inner.form]
  | .variable name _ => .word name.name
  | .assign name value _ => .list [.word "=", .word name.name, value.form]
  | .unary op operand _ => .list [.word op.text, operand.form]
  | .binary op left right _ => .list [.word op.text, left.form, right.form]
  | .logical op left right _ => .list [.word op.text, left.form, right.form]
  | .call callee arguments _ => .list (.word "call" :: callee.form :: argumentForms arguments)
  | .get object name => .list [.word ".", object.form, .word name.name]
  | .set object name value =>
    .list [.word "=", .list [.word ".", object.form, .word name.name], value.form]
  | .this _ _ => .word "this"
  | .super _ method _ => .list [.word "super", .word method.name]
  | .lambda decl => decl.form "fun"

def argumentForms : List Expr → List Form
  | [] => []
  | e :: es => e.form :: argumentForms es

def Stmt.form : Stmt → Form
  | .expression value => .list [.word ";", value.form]
  | .print value => .list [.word "print", value.form]
  | .var name none => .list [.word "var", .word name.name]
  | .var name (some value) => .list [.word "var", .word name.name, value.form]
  | .block body => .list (.word "block" :: bodyForms body)
  | .cond condition thenBranch none => .list [.word "if", condition.form, thenBranch.form]
  | .cond condition thenBranch (some elseBranch) =>
    .list [.word "if", condition.form, thenBranch.form, elseBranch.form]
  | .loop condition body => .list [.word "while", condition.form, body.form]
  | .function decl => decl.form "fun"
  | .ret _ none => .list [.word "return"]
  | .ret _ (some value) => .list [.word "return", value.form]
  | .brk _ => .list [.word "break"]
  | .classDecl name none methods =>
    .list (.word "class" :: .word name.name :: methodForms methods)
  | .classDecl name (some (parent, _)) methods =>
    .list (.word "class" :: .word name.name :: .word "<" :: .word parent.name ::
      methodForms methods)

def bodyForms : List Stmt → List Form
  | [] => []
  | s :: ss => s.form :: bodyForms ss

def FunDecl.form (keyword : String) : FunDecl → Form
  | ⟨none, params, body, _⟩ =>
    .list (.word keyword :: .list (params.map fun x => .word x.name) :: bodyForms body)
  | ⟨some name, params, body, _⟩ =>
    .list (.word keyword :: .word name.name :: .list (params.map fun x => .word x.name) ::
      bodyForms body)

def methodForms : List FunDecl → List Form
  | [] => []
  | d :: ds => d.form "method" :: methodForms ds

end

/-- The printed text of a node is that of its form. -/
def Node.Printed : Node → Prop
  | .expr e => e.render = e.form.text
  | .arguments es => renderArguments es = Form.textOfRest (argumentForms es)
  | .stmt s => s.render = s.form.text
  | .body ss => renderBody ss = Form.textOfRest (bodyForms ss)
  | .function decl => ∀ keyword, decl.render keyword = (decl.form keyword).text
  | .methods ds => renderMethods ds = Form.textOfRest (methodForms ds)
  | .top ss => ss.map Stmt.render = (bodyForms ss).map Form.text

theorem intercalate_blank (first : String) (rest : List String) :
    " ".intercalate (first :: rest) = first ++ Form.textOfRest (rest.map .word) := by
  induction rest generalizing first with
  | nil => simp [Form.textOfRest]
  | cons next rest ih =>
    rw [String.intercalate_cons_cons, ih, List.map_cons, Form.textOfRest, Form.text]
    simp only [String.append_assoc]

theorem text_words (names : List String) :
    (Form.list (names.map .word)).text = "(" ++ " ".intercalate names ++ ")" := by
  cases names with
  | nil => simp [Form.text]
  | cons first rest =>
    rw [intercalate_blank, List.map_cons, Form.text, Form.text]
    simp only [String.append_assoc]

theorem Expr.printed {e : Expr} (h : ∀ part ∈ e.parts, part.Printed) : e.render = e.form.text := by
  rw [← String.toList_inj]
  cases e <;> simp_all [parts, Node.Printed, render, form, Form.text, Form.textOfRest]

theorem Stmt.printed {s : Stmt} (h : ∀ part ∈ s.parts, part.Printed) : s.render = s.form.text := by
  rw [← String.toList_inj]
  cases s with
  | var name value | ret line value =>
    cases value <;> simp_all [parts, Node.Printed, render, form, Form.text, Form.textOfRest]
  | cond condition thenBranch elseBranch =>
    cases elseBranch <;> simp_all [parts, Node.Printed, render, form, Form.text, Form.textOfRest]
  | classDecl name superclass methods =>
    rcases superclass with _ | ⟨parent, slot⟩ <;>
      simp_all [parts, Node.Printed, render, form, Form.text, Form.textOfRest]
  | _ => simp_all [parts, Node.Printed, render, form, Form.text, Form.textOfRest]

theorem FunDecl.printed {decl : FunDecl} (h : renderBody decl.body =
    Form.textOfRest (bodyForms decl.body)) (keyword : String) :
    decl.render keyword = (decl.form keyword).text := by
  obtain ⟨name, params, body, line⟩ := decl
  have hparams : (Form.list (params.map fun x => .word x.name)).text =
      "(" ++ " ".intercalate (params.map Ident.name) ++ ")" := by
    rw [← text_words, List.map_map]
    rfl
  replace h : renderBody body = Form.textOfRest (bodyForms body) := h
  rw [← String.toList_inj]
  cases name <;> simp [render, form, Form.text, Form.textOfRest, h, hparams]

theorem Node.printed (node : Node) : node.Printed := by
  induction node using parts_induction with
  | h node ih =>
    cases node with
    | expr e => exact e.printed ih
    | stmt s => exact s.printed ih
    | function decl => exact decl.printed (ih (.body decl.body) (.head _))
    | arguments es =>
      cases es <;> simp_all [parts, Printed, renderArguments, argumentForms, Form.textOfRest]
    | methods ds =>
      cases ds <;> simp_all [parts, Printed, renderMethods, methodForms, Form.textOfRest]
    | top ss => cases ss <;> simp_all [parts, Printed, bodyForms]
    | body ss =>
      cases ss with
      | nil => rfl
      | cons s rest =>
        cases s <;>
          simp_all [parts, Printed, renderBody, bodyForms, Stmt.render, Stmt.form, Form.textOfRest]

/-! ## Reading forms -/

def Form.ident? : Form → Option Ident
  | .word name => some ⟨name, 0⟩
  | .list _ => none

def UnaryOp.ofText? (text : String) : Option UnaryOp :=
  [.negate, .not].find? (·.text == text)

def BinaryOp.ofText? (text : String) : Option BinaryOp :=
  [.add, .subtract, .multiply, .divide, .equal, .notEqual, .greater, .greaterEqual, .less,
    .lessEqual].find? (·.text == text)

def LogicalOp.ofText? (text : String) : Option LogicalOp :=
  [.and, .or].find? (·.text == text)

def Expr.ofWord (text : String) : Expr :=
  match text with
  | "nil" => .literal .nil 0
  | "true" => .literal (.bool true) 0
  | "false" => .literal (.bool false) 0
  | "this" => .this 0 none
  | _ =>
    if text.toList.head?.any Char.isDigit then .literal (.number (Number.read text.toList)) 0
    else .variable ⟨text, 0⟩ none

def Expr.operation? (op : String) (left right : Expr) : Option Expr :=
  match BinaryOp.ofText? op with
  | some op => some (.binary op left right 0)
  | none => (LogicalOp.ofText? op).map (.logical · left right 0)

mutual

/-- Reads the form of an expression. -/
def Expr.ofForm : Form → Option Expr
  | .word text => some (.ofWord text)
  | .list (.word head :: parts) =>
    match head, parts with
    | "group", [inner] => return .group (← Expr.ofForm inner)
    | "=", [.word name, value] => return .assign ⟨name, 0⟩ (← Expr.ofForm value) none
    | "=", [.list [_, object, .word name], value] =>
      return .set (← Expr.ofForm object) ⟨name, 0⟩ (← Expr.ofForm value)
    | "call", callee :: arguments =>
      return .call (← Expr.ofForm callee) (← argumentsOfForms arguments) 0
    | ".", [object, .word name] => return .get (← Expr.ofForm object) ⟨name, 0⟩
    | "super", [.word method] => some (.super 0 ⟨method, 0⟩ none)
    | "fun", .list params :: body =>
      return .lambda ⟨none, params.filterMap Form.ident?, ← bodyOfForms body, 0⟩
    | op, [operand] => return .unary (← UnaryOp.ofText? op) (← Expr.ofForm operand) 0
    | op, [left, right] => do Expr.operation? op (← Expr.ofForm left) (← Expr.ofForm right)
    | _, _ => none
  | _ => none

def argumentsOfForms : List Form → Option (List Expr)
  | [] => some []
  | form :: forms => return (← Expr.ofForm form) :: (← argumentsOfForms forms)

def Stmt.ofForm : Form → Option Stmt
  | .list (.word head :: parts) =>
    match head, parts with
    | ";", [value] => return .expression (← Expr.ofForm value)
    | "print", [value] => return .print (← Expr.ofForm value)
    | "var", [.word name] => some (.var ⟨name, 0⟩ none)
    | "var", [.word name, value] => return .var ⟨name, 0⟩ (some (← Expr.ofForm value))
    | "block", body => return .block (← bodyOfForms body)
    | "if", [condition, thenBranch] =>
      return .cond (← Expr.ofForm condition) (← Stmt.ofForm thenBranch) none
    | "if", [condition, thenBranch, elseBranch] =>
      return .cond (← Expr.ofForm condition) (← Stmt.ofForm thenBranch)
        (some (← Stmt.ofForm elseBranch))
    | "while", [condition, body] => return .loop (← Expr.ofForm condition) (← Stmt.ofForm body)
    | "fun", .word name :: .list params :: body =>
      return .function ⟨some ⟨name, 0⟩, params.filterMap Form.ident?, ← bodyOfForms body, 0⟩
    | "return", [] => some (.ret 0 none)
    | "return", [value] => return .ret 0 (some (← Expr.ofForm value))
    | "break", [] => some (.brk 0)
    | "class", .word name :: .word _ :: .word parent :: methods =>
      return .classDecl ⟨name, 0⟩ (some (⟨parent, 0⟩, none)) (← methodsOfForms methods)
    | "class", .word name :: methods => return .classDecl ⟨name, 0⟩ none (← methodsOfForms methods)
    | _, _ => none
  | _ => none

def bodyOfForms : List Form → Option (List Stmt)
  | [] => some []
  | form :: forms => return (← Stmt.ofForm form) :: (← bodyOfForms forms)

def methodsOfForms : List Form → Option (List FunDecl)
  | [] => some []
  | .list (_ :: .word name :: .list params :: body) :: forms =>
    return ⟨some ⟨name, 0⟩, params.filterMap Form.ident?, ← bodyOfForms body, 0⟩ ::
      (← methodsOfForms forms)
  | _ => none

end

/-! ## Names and literals -/

/-- The text of a name that is not reserved. -/
def IsName (name : String) : Prop :=
  Lexeme .identifier name.toList

/-- A character of a class without separators belongs to a word. -/
theorem isWordChar_of_class {q : Char → Bool} (hq : [' ', '(', ')', '\n'].any q = false)
    {c : Char} (h : q c = true) : Form.isWordChar c = true := by
  have hne (d : Char) (hd : d ∈ [' ', '(', ')', '\n']) : (c != d) = true := by
    rw [bne_iff_ne]
    rintro rfl
    exact List.any_eq_false.1 hq c hd h
  simp [Form.isWordChar, hne ' ', hne '(', hne ')', hne '\n']

theorem isNameChar_of_isNameStart {c : Char} (h : isNameStart c = true) : isNameChar c = true := by
  simp only [isNameStart, isNameChar, Char.isAlphanum, Bool.or_eq_true] at h ⊢
  exact h.imp_left Or.inl

namespace IsName
variable {name : String} (h : IsName name)
include h

theorem chars : ∃ c cs, name.toList = c :: cs ∧ isNameStart c = true ∧
    ∀ d ∈ cs, isNameChar d = true := by
  unfold IsName at h
  generalize name.toList = text at h
  cases h with
  | identifier hstart hchars => exact ⟨_, _, rfl, hstart, hchars⟩

theorem ne_keyword (k : Keyword) : k.text ≠ name := by
  rintro rfl
  unfold IsName at h
  have hk := h.kind_unique (.keyword k)
  cases hk

theorem isWord : Form.IsWord name := by
  obtain ⟨c, cs, hname, hstart, hchars⟩ := h.chars
  refine ⟨by simp [hname], ?_⟩
  intro d hd
  apply isWordChar_of_class (q := isNameChar) rfl
  rw [hname] at hd
  rcases List.mem_cons.1 hd with rfl | hd
  · exact isNameChar_of_isNameStart hstart
  · exact hchars d hd

theorem ofWord_eq : Expr.ofWord name = .variable ⟨name, 0⟩ none := by
  obtain ⟨c, cs, hname, hstart, -⟩ := h.chars
  have hdigit : name.toList.head?.any Char.isDigit = false := by
    simp [hname, isDigit_of_isNameStart hstart]
  unfold Expr.ofWord
  split
  · exact absurd rfl (h.ne_keyword .nilKw)
  · exact absurd rfl (h.ne_keyword .trueKw)
  · exact absurd rfl (h.ne_keyword .falseKw)
  · exact absurd rfl (h.ne_keyword .thisKw)
  · rw [hdigit]
    rfl

end IsName

theorem Expr.ofWord_of_isDigit {text : String} {c : Char} {cs : List Char}
    (htext : text.toList = c :: cs) (hc : c.isDigit = true) :
    ofWord text = .literal (.number (Number.read text.toList)) 0 := by
  have hne {word : String} (hword : word.toList.head?.any Char.isDigit = false) : text ≠ word := by
    rintro rfl
    simp [htext, hc] at hword
  unfold ofWord
  split
  · exact absurd rfl (hne rfl)
  · exact absurd rfl (hne rfl)
  · exact absurd rfl (hne rfl)
  · exact absurd rfl (hne rfl)
  · simp [htext, hc]

/-- What a source text can have as a literal. -/
def Literal.Genuine : Literal → Prop
  | .number x => Number.classify x = .infinite false ∨ ∃ size, Number.classify x = .finite false size
  | _ => True

/-- The literal is neither a string nor infinite. -/
def Literal.IsPlain : Literal → Prop
  | .number x => ∀ negative, Number.classify x ≠ .infinite negative
  | .string _ => False
  | _ => True

theorem Literal.number_spelled {x : Float} (h : Literal.Genuine (.number x))
    (hplain : Literal.IsPlain (.number x)) : ∃ q, Number.Numeral (Number.literalText x).toList q ∧
      Number.read (Number.literalText x).toList = x := by
  obtain ⟨size, hsize⟩ := h.resolve_left (hplain false)
  obtain ⟨body, htext, q, hnumeral, hq⟩ := Number.literalText_spells hsize
  obtain ⟨hcanonical, hx⟩ := Number.eq_of_classify hsize
  have hbody : Number.literalText x = body := by simpa using htext
  rw [hbody]
  exact ⟨q, hnumeral, (hnumeral.read_eq hcanonical hq).trans hx.symm⟩

namespace Literal
variable {value : Literal} (h : value.Genuine) (hplain : value.IsPlain)
include h hplain

theorem isWord_render : Form.IsWord value.render := by
  cases value with
  | nil => decide
  | bool b => cases b <;> decide
  | string s => exact absurd hplain id
  | number x =>
    obtain ⟨q, hnumeral, -⟩ := number_spelled h hplain
    obtain ⟨c, cs, hcs, -⟩ := hnumeral.head_isDigit
    refine ⟨by simp [render, hcs], ?_⟩
    intro d hd
    rcases hnumeral.isDigit_or_point d hd with hdigit | rfl
    · exact isWordChar_of_class (q := Char.isDigit) rfl hdigit
    · rfl

theorem ofWord_render : Expr.ofWord value.render = .literal value 0 := by
  cases value with
  | nil => rfl
  | bool b => cases b <;> rfl
  | string s => exact absurd hplain id
  | number x =>
    obtain ⟨q, hnumeral, hread⟩ := number_spelled h hplain
    obtain ⟨c, cs, hcs, hc⟩ := hnumeral.head_isDigit
    rw [render, Expr.ofWord_of_isDigit hcs hc, hread]

end Literal

/-! ## Reading trees back -/

/-- What a node that is derived from a source text has by itself. -/
def Node.Genuine : Node → Prop
  | .expr (.literal value _) => value.Genuine
  | .expr (.variable name slot) => IsName name.name ∧ slot = none
  | .expr (.assign name _ slot) => IsName name.name ∧ slot = none
  | .expr (.get _ name) => IsName name.name
  | .expr (.set _ name _) => IsName name.name
  | .expr (.this _ slot) => slot = none
  | .expr (.super _ method slot) => IsName method.name ∧ slot = none
  | .expr (.lambda decl) => decl.name = none
  | .stmt (.var name _) => IsName name.name
  | .stmt (.function decl) => decl.name.isSome
  | .stmt (.classDecl name superclass _) =>
    IsName name.name ∧ ∀ parent ∈ superclass, IsName parent.1.name ∧ parent.2 = none
  | .body (.function decl :: _) => decl.name.isSome
  | .function decl => (∀ name ∈ decl.name, IsName name.name) ∧ ∀ x ∈ decl.params, IsName x.name
  | .methods (decl :: _) => decl.name.isSome
  | _ => True

def Node.HasPlainLiteral : Node → Prop
  | .expr (.literal value _) => value.IsPlain
  | _ => True

/-- The form of a node can be told from others and is read as the node without its lines. -/
def Node.ReadsBack : Node → Prop
  | .expr e => e.form.Legible ∧ Expr.ofForm e.form = some (e.mapLines fun _ => 0)
  | .arguments es => (∀ form ∈ argumentForms es, form.Legible) ∧
      argumentsOfForms (argumentForms es) = some (mapLinesInArguments (fun _ => 0) es)
  | .stmt s => s.form.Legible ∧ Stmt.ofForm s.form = some (s.mapLines fun _ => 0)
  | .body ss | .top ss => (∀ form ∈ bodyForms ss, form.Legible) ∧
      bodyOfForms (bodyForms ss) = some (mapLinesInBody (fun _ => 0) ss)
  | .function decl =>
    (∀ keyword, Form.IsWord keyword → (decl.form keyword).Legible) ∧
      bodyOfForms (bodyForms decl.body) = some (mapLinesInBody (fun _ => 0) decl.body) ∧
      (decl.params.map fun x => Form.word x.name).filterMap Form.ident? =
        decl.params.map (Ident.mapLine fun _ => 0)
  | .methods ds => (∀ form ∈ methodForms ds, form.Legible) ∧
      methodsOfForms (methodForms ds) = some (mapLinesInMethods (fun _ => 0) ds)

theorem ident?_params (params : List Ident) :
    (params.map fun x => Form.word x.name).filterMap Form.ident? =
      params.map (Ident.mapLine fun _ => 0) := by
  rw [List.filterMap_map]
  exact List.filterMap_eq_map (f := Ident.mapLine fun _ => 0) ▸ rfl

theorem Expr.readsBack {e : Expr} (hgenuine : (Node.expr e).Genuine)
    (hplain : (Node.expr e).HasPlainLiteral) (h : ∀ part ∈ e.parts, part.ReadsBack) :
    e.form.Legible ∧ Expr.ofForm e.form = some (e.mapLines fun _ => 0) := by
  cases e with
  | literal value line =>
    exact ⟨.word (value.isWord_render hgenuine hplain),
      congrArg some (value.ofWord_render hgenuine hplain)⟩
  | «variable» name slot =>
    obtain ⟨hname, rfl⟩ := hgenuine
    exact ⟨.word hname.isWord, congrArg some hname.ofWord_eq⟩
  | group inner =>
    obtain ⟨hlegible, hread⟩ := h (.expr inner) (.head _)
    simp +decide [form, ofForm, mapLines, hlegible, hread]
  | assign name value slot =>
    obtain ⟨hlegible, hread⟩ := h (.expr value) (.head _)
    obtain ⟨hname, rfl⟩ := hgenuine
    simp +decide [form, ofForm, mapLines, hlegible, hread, hname.isWord, Ident.mapLine]
  | unary op operand line =>
    obtain ⟨hlegible, hread⟩ := h (.expr operand) (.head _)
    cases op <;> simp +decide [form, ofForm, mapLines, hlegible, hread, UnaryOp.text] <;> rfl
  | binary op left right line =>
    obtain ⟨hlegible, hread⟩ := h (.expr left) (.head _)
    obtain ⟨hlegible', hread'⟩ := h (.expr right) (.tail _ (.head _))
    cases op <;>
      simp +decide [form, ofForm, mapLines, hlegible, hread, hlegible', hread', BinaryOp.text] <;> rfl
  | logical op left right line =>
    obtain ⟨hlegible, hread⟩ := h (.expr left) (.head _)
    obtain ⟨hlegible', hread'⟩ := h (.expr right) (.tail _ (.head _))
    cases op <;>
      simp +decide [form, ofForm, mapLines, hlegible, hread, hlegible', hread', LogicalOp.text] <;> rfl
  | call callee arguments line =>
    obtain ⟨hlegible, hread⟩ := h (.expr callee) (.head _)
    obtain ⟨hlegible', hread'⟩ := h (.arguments arguments) (.tail _ (.head _))
    simp +decide [form, ofForm, mapLines, hlegible, hread, hread']
    exact hlegible'
  | get object name =>
    obtain ⟨hlegible, hread⟩ := h (.expr object) (.head _)
    replace hgenuine : IsName name.name := hgenuine
    simp +decide [form, ofForm, mapLines, hlegible, hread, hgenuine.isWord, Ident.mapLine]
  | set object name value =>
    obtain ⟨hlegible, hread⟩ := h (.expr object) (.head _)
    obtain ⟨hlegible', hread'⟩ := h (.expr value) (.tail _ (.head _))
    replace hgenuine : IsName name.name := hgenuine
    simp +decide [form, ofForm, mapLines, hlegible, hread, hlegible', hread', hgenuine.isWord,
      Ident.mapLine]
  | this line slot =>
    obtain rfl := (hgenuine : slot = none)
    simp +decide [form, ofForm, ofWord, mapLines]
  | super line method slot =>
    obtain ⟨hname, rfl⟩ := hgenuine
    simp +decide [form, ofForm, mapLines, hname.isWord, Ident.mapLine]
  | lambda decl =>
    obtain ⟨hlegible, hbody, hparams⟩ := h (.function decl) (.head _)
    obtain ⟨name, params, body, line⟩ := decl
    obtain rfl := (hgenuine : name = none)
    refine ⟨hlegible "fun" (by decide), ?_⟩
    simp_all [form, FunDecl.form, ofForm, mapLines, FunDecl.mapLines]

/-- A declaration in a body is the form of a function with a name. -/
theorem FunDecl.readsBack {decl : FunDecl} (hname : decl.name.isSome)
    (h : (Node.function decl).ReadsBack) : (decl.form "fun").Legible ∧
      Stmt.ofForm (decl.form "fun") = some (.function (decl.mapLines fun _ => 0)) := by
  obtain ⟨hlegible, hbody, hparams⟩ := h
  refine ⟨hlegible "fun" (by decide), ?_⟩
  obtain ⟨name, params, body, line⟩ := decl
  obtain ⟨name, rfl⟩ := Option.isSome_iff_exists.1 hname
  simp_all [form, Stmt.ofForm, mapLines, Ident.mapLine]

theorem FunDecl.form_eq_list (keyword : String) (decl : FunDecl) :
    ∃ parts, decl.form keyword = .list parts := by
  obtain ⟨_ | name, params, body, line⟩ := decl <;> exact ⟨_, rfl⟩

/-- No method is a word, so what follows the name of a class says whether it has a superclass. -/
theorem Stmt.ofForm_class {name : String} {methods decls : List FunDecl}
    (h : methodsOfForms (methodForms methods) = some decls) :
    ofForm (.list (.word "class" :: .word name :: methodForms methods)) =
      some (.classDecl ⟨name, 0⟩ none decls) := by
  cases methods with
  | nil =>
    rw [methodForms] at h ⊢
    simp [ofForm, h]
  | cons decl methods =>
    obtain ⟨parts, hparts⟩ := decl.form_eq_list "method"
    rw [methodForms, hparts] at h ⊢
    simp [ofForm, h]

theorem Stmt.readsBack {s : Stmt} (hgenuine : (Node.stmt s).Genuine)
    (h : ∀ part ∈ s.parts, part.ReadsBack) :
    s.form.Legible ∧ Stmt.ofForm s.form = some (s.mapLines fun _ => 0) := by
  cases s with
  | expression value | print value =>
    obtain ⟨hlegible, hread⟩ := h (.expr value) (.head _)
    simp +decide [form, ofForm, mapLines, hlegible, hread]
  | var name value =>
    replace hgenuine : IsName name.name := hgenuine
    cases value with
    | none => simp +decide [form, ofForm, mapLines, hgenuine.isWord, Ident.mapLine]
    | some value =>
      obtain ⟨hlegible, hread⟩ := h (.expr value) (.head _)
      simp +decide [form, ofForm, mapLines, hlegible, hread, hgenuine.isWord, Ident.mapLine]
  | block body =>
    obtain ⟨hlegible, hread⟩ := h (.body body) (.head _)
    simp +decide [form, ofForm, mapLines, hread]
    exact hlegible
  | cond condition thenBranch elseBranch =>
    cases elseBranch with
    | none =>
      obtain ⟨hlegible, hread⟩ := h (.expr condition) (.head _)
      obtain ⟨hlegible', hread'⟩ := h (.stmt thenBranch) (.tail _ (.head _))
      simp +decide [form, ofForm, mapLines, hlegible, hread, hlegible', hread']
    | some elseBranch =>
      obtain ⟨hlegible, hread⟩ := h (.expr condition) (.head _)
      obtain ⟨hlegible', hread'⟩ := h (.stmt thenBranch) (.tail _ (.head _))
      obtain ⟨hlegible'', hread''⟩ := h (.stmt elseBranch) (.tail _ (.tail _ (.head _)))
      simp +decide [form, ofForm, mapLines, hlegible, hread, hlegible', hread', hlegible'',
        hread'']
  | loop condition body =>
    obtain ⟨hlegible, hread⟩ := h (.expr condition) (.head _)
    obtain ⟨hlegible', hread'⟩ := h (.stmt body) (.tail _ (.head _))
    simp +decide [form, ofForm, mapLines, hlegible, hread, hlegible', hread']
  | function decl => exact decl.readsBack hgenuine (h (.function decl) (.head _))
  | ret line value =>
    cases value with
    | none => simp +decide [form, ofForm, mapLines]
    | some value =>
      obtain ⟨hlegible, hread⟩ := h (.expr value) (.head _)
      simp +decide [form, ofForm, mapLines, hlegible, hread]
  | brk line => simp +decide [form, ofForm, mapLines]
  | classDecl name superclass methods =>
    obtain ⟨hlegible, hread⟩ := h (.methods methods) (.head _)
    obtain ⟨hname, hparent⟩ := hgenuine
    rcases superclass with _ | ⟨parent, slot⟩
    · refine ⟨?_, ?_⟩
      · simp +decide [form, hname.isWord]
        exact hlegible
      · rw [form, ofForm_class hread]
        rfl
    · obtain ⟨hparent, rfl⟩ := hparent _ rfl
      simp +decide [form, ofForm, mapLines, hread, hname.isWord, hparent.isWord, Ident.mapLine]
      exact hlegible

theorem FunDecl.legible {decl : FunDecl} (hgenuine : (Node.function decl).Genuine)
    (hbody : ∀ form ∈ bodyForms decl.body, form.Legible) {keyword : String}
    (hkeyword : Form.IsWord keyword) : (decl.form keyword).Legible := by
  obtain ⟨name, params, body, line⟩ := decl
  obtain ⟨hname, hparams⟩ := hgenuine
  have hwords : ∀ form ∈ params.map fun x => Form.word x.name, form.Legible := by
    intro form hform
    obtain ⟨x, hx, rfl⟩ := List.mem_map.1 hform
    exact .word (hparams x hx).isWord
  cases name with
  | none =>
    rw [form, Form.legible_list, List.forall_mem_cons, List.forall_mem_cons]
    exact ⟨.word hkeyword, .list hwords, hbody⟩
  | some name =>
    rw [form, Form.legible_list, List.forall_mem_cons, List.forall_mem_cons, List.forall_mem_cons]
    exact ⟨.word hkeyword, .word (hname name rfl).isWord, .list hwords, hbody⟩

theorem readsBack_cons {s : Stmt} {ss : List Stmt} (hs : (Node.stmt s).ReadsBack)
    (hss : (Node.body ss).ReadsBack) : (Node.body (s :: ss)).ReadsBack := by
  obtain ⟨hlegible, hread⟩ := hs
  obtain ⟨hlegible', hread'⟩ := hss
  exact ⟨List.forall_mem_cons.2 ⟨hlegible, hlegible'⟩,
    by simp [bodyForms, bodyOfForms, hread, hread', mapLinesInBody]⟩

theorem Node.readsBack {node : Node} (hgenuine : Throughout Genuine node)
    (hplain : Throughout HasPlainLiteral node) : node.ReadsBack := by
  induction node using parts_induction with
  | h node ih =>
    obtain ⟨hown, hparts⟩ := hgenuine
    obtain ⟨hliteral, hparts'⟩ := hplain
    replace ih (part : Node) (hpart : part ∈ node.parts) : part.ReadsBack :=
      ih part hpart (hparts part hpart) (hparts' part hpart)
    cases node with
    | expr e => exact e.readsBack hown hliteral ih
    | stmt s => exact s.readsBack hown ih
    | function decl =>
      obtain ⟨hlegible, hread⟩ := ih (.body decl.body) (.head _)
      exact ⟨fun keyword => decl.legible hown hlegible, hread, ident?_params decl.params⟩
    | arguments es =>
      cases es with
      | nil => exact ⟨by simp [argumentForms], rfl⟩
      | cons e es =>
        obtain ⟨hlegible, hread⟩ := ih (.expr e) (.head _)
        obtain ⟨hlegible', hread'⟩ := ih (.arguments es) (.tail _ (.head _))
        exact ⟨List.forall_mem_cons.2 ⟨hlegible, hlegible'⟩,
          by simp [argumentForms, argumentsOfForms, hread, hread', mapLinesInArguments]⟩
    | methods decls =>
      cases decls with
      | nil => exact ⟨by simp [methodForms], rfl⟩
      | cons decl decls =>
        obtain ⟨hlegible, hbody, hparams⟩ := ih (.function decl) (.head _)
        obtain ⟨hlegible', hread'⟩ := ih (.methods decls) (.tail _ (.head _))
        refine ⟨List.forall_mem_cons.2 ⟨hlegible "method" (by decide), hlegible'⟩, ?_⟩
        obtain ⟨name, params, body, line⟩ := decl
        obtain ⟨name, rfl⟩ := Option.isSome_iff_exists.1 hown
        simp_all [methodForms, FunDecl.form, methodsOfForms, mapLinesInMethods, FunDecl.mapLines,
          Ident.mapLine]
    | top ss =>
      cases ss with
      | nil => exact ⟨by simp [bodyForms], rfl⟩
      | cons s ss => exact readsBack_cons (ih (.stmt s) (.head _)) (ih (.top ss) (.tail _ (.head _)))
    | body ss =>
      cases ss with
      | nil => exact ⟨by simp [bodyForms], rfl⟩
      | cons s ss =>
        cases hs : s.isFunction with
        | false =>
          rw [parts_body_cons hs] at ih
          exact readsBack_cons (ih (.stmt s) (.head _)) (ih (.body ss) (.tail _ (.head _)))
        | true =>
          cases s with
          | function decl =>
            have hdecl := decl.readsBack hown (ih (.function decl) (.head _))
            exact readsBack_cons hdecl (ih (.body ss) (.tail _ (.head _)))
          | _ => cases hs

end Lox
