/-!
# Parenthesised texts

A form is a word, or a list of forms in parentheses with blanks between them. If no word has a
blank, a parenthesis or a line break in it, then the text of a form says where it ends, and no other
form has the same text. The same holds of a row of forms with one form to a line.
-/

set_option autoImplicit false

namespace Lox

inductive Form where
  | word (text : String)
  | list (parts : List Form)

namespace Form

mutual

def text : Form → String
  | .word text => text
  | .list [] => "()"
  | .list (first :: rest) => "(" ++ first.text ++ textOfRest rest ++ ")"

/-- Each form with a blank before it. -/
def textOfRest : List Form → String
  | [] => ""
  | form :: rest => " " ++ form.text ++ textOfRest rest

end

/-- One form to a line. -/
def lines (forms : List Form) : String :=
  "\n".intercalate (forms.map text)

def isWordChar (c : Char) : Bool :=
  c != ' ' && c != '(' && c != ')' && c != '\n'

structure IsWord (s : String) : Prop where
  ne_nil : s.toList ≠ []
  chars : ∀ c ∈ s.toList, isWordChar c = true

instance (s : String) : Decidable (IsWord s) :=
  decidable_of_iff (s.toList.isEmpty = false ∧ s.toList.all isWordChar = true)
    ⟨fun h => ⟨List.isEmpty_eq_false_iff.1 h.1, List.all_eq_true.1 h.2⟩,
      fun h => ⟨List.isEmpty_eq_false_iff.2 h.ne_nil, List.all_eq_true.2 h.chars⟩⟩

/-- All words in the form can be told from what stands around them. -/
inductive Legible : Form → Prop where
  | word {s : String} : IsWord s → Legible (.word s)
  | list {parts : List Form} : (∀ part ∈ parts, Legible part) → Legible (.list parts)

@[simp] theorem legible_word {s : String} : Legible (.word s) ↔ IsWord s :=
  ⟨fun h => by cases h; assumption, .word⟩

@[simp] theorem legible_list {parts : List Form} :
    Legible (.list parts) ↔ ∀ part ∈ parts, Legible part :=
  ⟨fun h => by cases h; assumption, .list⟩

/-- A word ends before this text. -/
def EndsWord (rest : List Char) : Prop :=
  ∀ c ∈ rest.head?, isWordChar c = false

/-- Where the text of the form stands, no other form can be read. -/
def ReadsOnly (form : Form) : Prop :=
  ∀ {form' : Form} {rest rest' : List Char}, Legible form' → EndsWord rest → EndsWord rest' →
    form.text.toList ++ rest = form'.text.toList ++ rest' → form = form' ∧ rest = rest'

theorem takeWhile_word {s : String} (hs : IsWord s) {rest : List Char} (hrest : EndsWord rest) :
    (s.toList ++ rest).takeWhile isWordChar = s.toList := by
  rw [List.takeWhile_append_of_pos hs.chars]
  cases rest with
  | nil => simp
  | cons c rest => rw [List.takeWhile_cons_of_neg (by simp [hrest c rfl]), List.append_nil]

theorem text_list_cons (first : Form) (rest : List Form) (more : List Char) :
    (list (first :: rest)).text.toList ++ more =
      '(' :: (first.text.toList ++ ((textOfRest rest).toList ++ ')' :: more)) := by
  simp [text]

theorem text_list_nil (more : List Char) :
    (list []).text.toList ++ more = '(' :: ')' :: more := by
  simp [text]

theorem textOfRest_cons (form : Form) (rest : List Form) (more : List Char) :
    (textOfRest (form :: rest)).toList ++ more =
      ' ' :: (form.text.toList ++ ((textOfRest rest).toList ++ more)) := by
  simp [textOfRest]

/-- A form starts with a parenthesis or with the first character of a word. -/
theorem Legible.head {form : Form} (h : Legible form) (rest : List Char) :
    ∃ c more, form.text.toList ++ rest = c :: more ∧ c ≠ ')' ∧
      (isWordChar c = true ↔ ∃ s, form = Form.word s) := by
  cases h with
  | word hs =>
    rename_i s
    obtain ⟨c, more, hchars⟩ := List.exists_cons_of_ne_nil hs.ne_nil
    have hc : isWordChar c = true := hs.chars c (by simp [hchars])
    refine ⟨c, more ++ rest, by simp [text, hchars], ?_, by simp [hc]⟩
    rintro rfl
    cases hc
  | list hparts =>
    rename_i parts
    cases parts with
    | nil => exact ⟨_, _, text_list_nil rest, by decide, by simp [isWordChar]⟩
    | cons first others =>
      exact ⟨_, _, text_list_cons first others rest, by decide, by simp [isWordChar]⟩

theorem endsWord_textOfRest (forms : List Form) (rest : List Char) :
    EndsWord ((textOfRest forms).toList ++ ')' :: rest) := by
  cases forms with
  | nil => simp [textOfRest, EndsWord, isWordChar]
  | cons form forms => simp [textOfRest, EndsWord, isWordChar]

theorem readsOnly_word {s : String} (hs : IsWord s) : ReadsOnly (word s) := by
  intro form' rest rest' h' hrest hrest' heq
  cases h' with
  | word hs' =>
    have hwords := congrArg (List.takeWhile isWordChar) heq
    rw [text, text, takeWhile_word hs hrest, takeWhile_word hs' hrest'] at hwords
    rw [text, text, hwords] at heq
    exact ⟨congrArg word (String.toList_inj.1 hwords), List.append_cancel_left heq⟩
  | list hparts =>
    obtain ⟨c, more, hc, -, hword⟩ := (Legible.word hs).head rest
    obtain ⟨c', more', hc', -, hlist⟩ := (Legible.list hparts).head rest'
    rw [hc, hc', List.cons.injEq] at heq
    obtain ⟨s', hs'⟩ := hlist.1 (heq.1 ▸ hword.2 ⟨s, rfl⟩)
    cases hs'

theorem rest_unique {parts parts' : List Form} {rest rest' : List Char}
    (hparts : ∀ part ∈ parts, ReadsOnly part) (hparts' : ∀ part ∈ parts', Legible part)
    (heq : (textOfRest parts).toList ++ ')' :: rest = (textOfRest parts').toList ++ ')' :: rest') :
    parts = parts' ∧ rest = rest' := by
  induction parts generalizing parts' with
  | nil =>
    cases parts' with
    | nil => simpa [textOfRest] using heq
    | cons form' parts' => simp [textOfRest] at heq
  | cons form parts ih =>
    cases parts' with
    | nil => simp [textOfRest] at heq
    | cons form' parts' =>
      rw [textOfRest_cons, textOfRest_cons, List.cons.injEq] at heq
      obtain ⟨rfl, hmore⟩ := hparts form List.mem_cons_self (hparts' form' List.mem_cons_self)
        (endsWord_textOfRest parts rest) (endsWord_textOfRest parts' rest') heq.2
      obtain ⟨rfl, hrest⟩ := ih (fun part h => hparts part (List.mem_cons_of_mem _ h))
        (fun part h => hparts' part (List.mem_cons_of_mem _ h)) hmore
      exact ⟨rfl, hrest⟩

theorem readsOnly_list {parts : List Form} (hparts : ∀ part ∈ parts, ReadsOnly part)
    (hlegible : ∀ part ∈ parts, Legible part) : ReadsOnly (list parts) := by
  intro form' rest rest' h' hrest hrest' heq
  cases h' with
  | word hs' =>
    obtain ⟨c, more, hc, -, hlist⟩ := (Legible.list hlegible).head rest
    obtain ⟨c', more', hc', -, hword⟩ := (Legible.word hs').head rest'
    rw [hc, hc', List.cons.injEq] at heq
    obtain ⟨s, hs⟩ := hlist.1 (heq.1 ▸ hword.2 ⟨_, rfl⟩)
    cases hs
  | @list parts' hparts' =>
    cases parts with
    | nil =>
      cases parts' with
      | nil => simpa [text] using heq
      | cons first' others' =>
        obtain ⟨c, more, hc, hclose, -⟩ := (hparts' first' List.mem_cons_self).head
          ((textOfRest others').toList ++ ')' :: rest')
        rw [text_list_nil, text_list_cons, hc] at heq
        simp only [List.cons.injEq, true_and] at heq
        exact absurd heq.1.symm hclose
    | cons first others =>
      cases parts' with
      | nil =>
        obtain ⟨c, more, hc, hclose, -⟩ := (hlegible first List.mem_cons_self).head
          ((textOfRest others).toList ++ ')' :: rest)
        rw [text_list_nil, text_list_cons, hc] at heq
        simp only [List.cons.injEq, true_and] at heq
        exact absurd heq.1 hclose
      | cons first' others' =>
        rw [text_list_cons, text_list_cons, List.cons.injEq] at heq
        obtain ⟨rfl, hmore⟩ := hparts first List.mem_cons_self (hparts' first' List.mem_cons_self)
          (endsWord_textOfRest others rest) (endsWord_textOfRest others' rest') heq.2
        obtain ⟨rfl, hrest⟩ := rest_unique (fun part h => hparts part (List.mem_cons_of_mem _ h))
          (fun part h => hparts' part (List.mem_cons_of_mem _ h)) hmore
        exact ⟨rfl, hrest⟩

theorem Legible.readsOnly {form : Form} (h : Legible form) : ReadsOnly form := by
  induction h with
  | word hs => exact readsOnly_word hs
  | list hparts ih => exact readsOnly_list ih hparts

/-- The text of a form determines the form. -/
theorem eq_of_text_eq {form form' : Form} (h : Legible form) (h' : Legible form')
    (heq : form.text = form'.text) : form = form' := by
  have htexts : form.text.toList ++ [] = form'.text.toList ++ [] := by rw [heq]
  exact (h.readsOnly h' (by simp [EndsWord]) (by simp [EndsWord]) htexts).1

/-! ## One form to a line -/

/-- What follows a form on whose next line the others start. -/
def afterLine (others : List Form) : List Char :=
  if others.isEmpty then [] else '\n' :: (lines others).toList

theorem lines_cons (form : Form) (others : List Form) :
    (lines (form :: others)).toList = form.text.toList ++ afterLine others := by
  cases others with
  | nil => simp [lines, afterLine]
  | cons next others => simp [lines, afterLine, String.intercalate_cons_cons]

theorem endsWord_afterLine (others : List Form) : EndsWord (afterLine others) := by
  cases others with
  | nil => simp [afterLine, EndsWord]
  | cons next others => simp [afterLine, EndsWord, isWordChar]

theorem lines_eq_of_afterLine_eq {others others' : List Form}
    (heq : afterLine others = afterLine others') : lines others = lines others' := by
  cases others with
  | nil =>
    cases others' with
    | nil => rfl
    | cons next others' => simp [afterLine] at heq
  | cons next others =>
    cases others' with
    | nil => simp [afterLine] at heq
    | cons next' others' => simpa [afterLine, String.toList_inj] using heq

/-- The text of forms on lines of their own determines the forms. -/
theorem eq_of_lines_eq {forms forms' : List Form} (h : ∀ form ∈ forms, Legible form)
    (h' : ∀ form ∈ forms', Legible form) (heq : lines forms = lines forms') : forms = forms' := by
  induction forms generalizing forms' with
  | nil =>
    cases forms' with
    | nil => rfl
    | cons form' others' =>
      obtain ⟨c, more, hc, -⟩ := (h' form' List.mem_cons_self).head (afterLine others')
      have hnil := congrArg String.toList heq
      rw [lines_cons, hc] at hnil
      cases hnil
  | cons form others ih =>
    cases forms' with
    | nil =>
      obtain ⟨c, more, hc, -⟩ := (h form List.mem_cons_self).head (afterLine others)
      have hnil := congrArg String.toList heq
      rw [lines_cons, hc] at hnil
      cases hnil
    | cons form' others' =>
      have htexts := congrArg String.toList heq
      rw [lines_cons, lines_cons] at htexts
      obtain ⟨rfl, hafter⟩ := (h form List.mem_cons_self).readsOnly (h' form' List.mem_cons_self)
        (endsWord_afterLine others) (endsWord_afterLine others') htexts
      obtain rfl := ih (fun f hf => h f (List.mem_cons_of_mem _ hf))
        (fun f hf => h' f (List.mem_cons_of_mem _ hf)) (lines_eq_of_afterLine_eq hafter)
      rfl

end Form

end Lox
