/-!
# Bindings

Names with what they are bound to. A name is bound at most once by the operations of this
module, and names keep the order in which they were first bound.
-/

set_option autoImplicit false

namespace Lox

structure Bindings (α : Type) where
  entries : List (String × α)

namespace Bindings

variable {α : Type}

def empty : Bindings α := ⟨[]⟩

def single (name : String) (value : α) : Bindings α := ⟨[(name, value)]⟩

def find? (b : Bindings α) (name : String) : Option α :=
  b.entries.lookup name

def names (b : Bindings α) : List String :=
  b.entries.map Prod.fst

def putEntry (name : String) (value : α) : List (String × α) → List (String × α)
  | [] => [(name, value)]
  | (n, v) :: rest => if n = name then (name, value) :: rest else (n, v) :: putEntry name value rest

/-- Binds a name, in the place of its earlier binding if it has one. -/
def put (b : Bindings α) (name : String) (value : α) : Bindings α :=
  ⟨putEntry name value b.entries⟩

def putAll (b : Bindings α) : List String → List α → Bindings α
  | name :: names, value :: values => (b.put name value).putAll names values
  | _, _ => b

@[simp] theorem find?_empty (name : String) : (empty : Bindings α).find? name = none := rfl

@[simp] theorem find?_put_self (b : Bindings α) (name : String) (value : α) :
    (b.put name value).find? name = some value := by
  obtain ⟨entries⟩ := b
  simp only [find?, put]
  induction entries with
  | nil => simp [putEntry]
  | cons p rest ih =>
    obtain ⟨n, v⟩ := p
    by_cases h : n = name
    · simp [putEntry, h]
    · have hne : (name == n) = false := by simpa using fun e : name = n => h e.symm
      simp [putEntry, h, List.lookup_cons, hne, ih]

theorem find?_put_of_ne (b : Bindings α) {name other : String} (value : α) (h : other ≠ name) :
    (b.put name value).find? other = b.find? other := by
  obtain ⟨entries⟩ := b
  have hne : (other == name) = false := by simpa using h
  simp only [find?, put]
  induction entries with
  | nil => simp [putEntry, List.lookup_cons, hne]
  | cons p rest ih =>
    obtain ⟨n, v⟩ := p
    by_cases hn : n = name
    · subst hn
      simp [putEntry, List.lookup_cons, hne]
    · simp only [putEntry, hn, if_false, List.lookup_cons, ih]

theorem names_put (b : Bindings α) (name : String) (a : α) :
    (b.put name a).names = if name ∈ b.names then b.names else b.names ++ [name] := by
  obtain ⟨entries⟩ := b
  simp only [names, put]
  induction entries with
  | nil => simp [putEntry]
  | cons entry rest ih =>
    obtain ⟨n, a'⟩ := entry
    by_cases hn : n = name
    · simp [putEntry, hn]
    · rw [putEntry, if_neg hn, List.map_cons, ih]
      by_cases hrest : name ∈ rest.map Prod.fst
      · simp [hrest]
      · simp [hrest, Ne.symm hn]

end Bindings

end Lox
