import Mathlib
import SoutherNative.Beginnings
import SoutherNative.TextOperations

set_option autoImplicit false

/-!
# How wide a widening comes to be

A widening asks for a longer fill until the fill and the text come to the width. Copies of a pad that
begins apart stay as they are, and so they do after a text. Before one, how far the two fall short is
what the piece of the pad the fill ends with takes up of the text. A longer fill ends with another
piece, and may give back at once more than the one code point it adds.
-/
namespace SoutherNative.TextOperations
open Normalization CanonicalData

section Turns

variable (data : CanonicalData Char)

end Turns

section Widths

variable {data : CanonicalData Char}

/-- Whether a text begins apart is its first code point's to say. -/
theorem beginsApart_head (a : Char) (text : Text) :
    BeginsApart data (a :: text) ↔ BeginsApart data [a] := by
  have hhead : (data.decomposed (a :: text)).head? = (data.decomposed [a]).head? := by
    have hne := data.decompose_ne_nil a
    simp [decomposed, List.head?_append, List.head?_eq_some_head hne]
  rw [BeginsApart, hhead]
  exact Iff.rfl

end Widths

section Apart

variable {data : CanonicalData Char}

def StandsApart (data : CanonicalData Char) (a : Char) : Prop :=
  InNfc data [a] ∧ BeginsApart data [a]

theorem beginsApart_standing {text : Text} (h : ∀ a ∈ text, StandsApart data a) :
    BeginsApart data text := by
  cases text with
  | nil => rintro a ⟨⟩
  | cons a text => exact (beginsApart_head a text).mpr (h a List.mem_cons_self).2

theorem nfc_standing {text : Text} (h : ∀ a ∈ text, StandsApart data a) : InNfc data text := by
  induction text with
  | nil => rfl
  | cons a text ih =>
    have hrest : ∀ b ∈ text, StandsApart data b := fun b hb => h b (List.mem_cons_of_mem a hb)
    have hfirst : data.nfc [a] = [a] := (h a List.mem_cons_self).1
    have htext : data.nfc text = text := ih hrest
    have hjoin := @nfc_append _ data [a] text (beginsApart_standing hrest)
    rw [hfirst, htext] at hjoin
    exact hjoin

end Apart

end SoutherNative.TextOperations
