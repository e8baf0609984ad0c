import Mathlib.Data.List.Basic

set_option autoImplicit false

/-!
# Codes that read back

A code whose words are read one way only, whatever stands after them. A text spelt in one reads back
wherever what follows it begins with none of its words.
-/
namespace SoutherNative

structure PrefixCode (α β : Type*) where
  word : α → List β
  reads : ∀ {a b : α} {xs ys : List β}, word a ++ xs = word b ++ ys → a = b ∧ xs = ys

namespace PrefixCode

variable {α β : Type*} (code : PrefixCode α β)

def spell (text : List α) : List β := text.flatMap code.word

def Stops (rest : List β) : Prop := ∀ a xs, code.word a ++ xs ≠ rest

@[simp] theorem spell_nil : code.spell [] = [] := rfl

@[simp] theorem spell_cons (a : α) (text : List α) :
    code.spell (a :: text) = code.word a ++ code.spell text := by
  rw [spell, spell, List.flatMap_cons]

variable {code} in
/-- A text reads back before anything that stops it. -/
theorem spell_append {text other : List α} {xs ys : List β} (hx : code.Stops xs)
    (hy : code.Stops ys) (h : code.spell text ++ xs = code.spell other ++ ys) :
    text = other ∧ xs = ys := by
  induction text generalizing other with
  | nil =>
    cases other with
    | nil => exact ⟨rfl, h⟩
    | cons b other =>
      rw [spell_nil, List.nil_append, spell_cons, List.append_assoc] at h
      exact absurd h.symm (hx b _)
  | cons a text ih =>
    cases other with
    | nil =>
      rw [spell_nil, List.nil_append, spell_cons, List.append_assoc] at h
      exact absurd h (hy a _)
    | cons b other =>
      rw [spell_cons, spell_cons, List.append_assoc, List.append_assoc] at h
      obtain ⟨rfl, hrest⟩ := code.reads h
      obtain ⟨rfl, hxs⟩ := ih hrest
      exact ⟨rfl, hxs⟩

/-- A code with no empty word stops at the end of the text. -/
theorem stops_nil (h : ∀ a, code.word a ≠ []) : code.Stops [] :=
  fun a _ hnil => h a (List.append_eq_nil_iff.mp hnil).1

end PrefixCode

end SoutherNative
