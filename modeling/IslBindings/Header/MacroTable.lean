import IslBindings.Header.Macro

/-!
# Macro tables

The function-like macros of some headers, one for each name. The main statement: a
later definition of a name takes the place of an earlier one.
-/

namespace IslBindings.Header

structure MacroTable where
  macros : List Macro
  distinct : macros.Pairwise fun a b => a.name ≠ b.name

namespace MacroTable

def empty : MacroTable := ⟨[], List.Pairwise.nil⟩

instance : Inhabited MacroTable := ⟨empty⟩

def find? (t : MacroTable) (name : String) : Option Macro :=
  t.macros.find? (·.name == name)

def contains (t : MacroTable) (name : String) : Bool := (t.find? name).isSome

def size (t : MacroTable) : Nat := t.macros.length

def isEmpty (t : MacroTable) : Bool := t.macros.isEmpty

def insert (t : MacroTable) (m : Macro) : MacroTable where
  macros := m :: t.macros.filter (·.name != m.name)
  distinct := by
    rw [List.pairwise_cons]
    refine ⟨fun a ha => ?_, t.distinct.filter _⟩
    rw [List.mem_filter] at ha
    simp only [bne_iff_ne, ne_eq] at ha
    exact fun he => ha.2 he.symm

/-- Adds the macros that a header defines. -/
def collect (t : MacroTable) (text : List Char) : MacroTable :=
  (definedMacros text).foldl insert t

theorem find?_empty (name : String) : empty.find? name = none := rfl

theorem find?_insert_self (t : MacroTable) (m : Macro) : (t.insert m).find? m.name = some m := by
  simp [find?, insert]

theorem find?_insert_of_ne (t : MacroTable) {m : Macro} {name : String} (h : m.name ≠ name) :
    (t.insert m).find? name = t.find? name := by
  have hk : ∀ ms : List Macro,
      (ms.filter (·.name != m.name)).find? (·.name == name) = ms.find? (·.name == name) := by
    intro ms
    induction ms with
    | nil => rfl
    | cons a as ih =>
      by_cases ha : a.name = m.name
      · have hn : (a.name == name) = false := by rw [ha]; simpa using h
        have hf : (a.name != m.name) = false := by simp [ha]
        rw [List.filter_cons, if_neg (by simp [hf]), List.find?_cons, hn, ih]
      · have hf : (a.name != m.name) = true := by simpa using ha
        rw [List.filter_cons, if_pos hf, List.find?_cons, List.find?_cons, ih]
  simp only [find?, insert, List.find?_cons]
  have hn : (m.name == name) = false := by simpa using h
  rw [hn]
  exact hk t.macros

end MacroTable

end IslBindings.Header
