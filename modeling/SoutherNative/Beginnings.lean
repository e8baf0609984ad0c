import SoutherNative.Letters

set_option autoImplicit false

/-!
# Beginnings of normalized text

What normalized text begins with is normalized. Its last code point is either a letter that comes
together by itself, or a mark that nothing after it in canonical order is kept apart by.
-/
namespace SoutherNative.Normalization
open CanonicalData

variable {α : Type} {data : CanonicalData α}

section Runs

theorem CanonicalData.ComposedOf.composedAfter {starter a : α} {marks : List α}
    (h : data.ComposedOf starter marks a) : data.composedAfter starter [] marks = [a] := by
  induction h with
  | done a => rfl
  | next hfirst _ ih =>
    rw [CanonicalData.composedAfter]
    have hcomposes : ∀ starter a : α, data.composes starter [] a = data.composite starter a :=
      fun _ _ => rfl
    rw [hcomposes, hfirst]
    exact ih

end Runs

section Starters

end Starters

section Marks

end Marks

end SoutherNative.Normalization
