import SoutherNative.Transport
import SoutherNative.HashTrie

set_option autoImplicit false

/-!
# Values

What a value is made of on the machine: a word, or the address of what it holds. What stands at an
address is written here where the address is, since nothing a value is made of is written again. A
set and a map are what their trie lists, each entry with the hash it was put in under.
-/
namespace SoutherNative.Values
open Transport HashTrie

/-- The code of a function value: a lifted function of the object, or the wrapper that calls a
    function of one type as one of another. -/
inductive Code
  | lifted (site : ℕ)
  | wrap (fromTakes : List Ty) (fromAnswers : Ty) (toTakes : List Ty) (toAnswers : Ty)
  deriving DecidableEq

/-- A value, where `R` is what the runtime keeps of a primitive that is no word. -/
inductive Val (R : Type)
  | word (word : BitVec 64)
  | amount (prim : Prim) (kept : R)
  | tagged (which : Case) (slots : List (Val R))
  | absent
  | held (value : Val R)
  | members (members : List (Val R))
  | list (elements : List (Val R))
  | set (entries : List (Entry (Val R) Int64))
  | map (entries : List (Entry (Val R) (Val R)))
  | closure (code : Code) (captures : List (Val R))

/-- What the runtime keeps of the primitives that are no words. Two compare by what they name: a
    text, an amount whatever its scale, a day, a moment. -/
structure Primitives (R Key : Type) [LinearOrder Key] where
  names : Prim → R → Key
  hash : Prim → R → BitVec 64
  hash_names : ∀ p a b, names p a = names p b → hash p a = hash p b

def Primitives.compare {R Key : Type} [LinearOrder Key] (primitives : Primitives R Key) (p : Prim)
    (a b : R) : ℤ :=
  match cmp (primitives.names p a) (primitives.names p b) with
  | .lt => -1
  | .eq => 0
  | .gt => 1

/-- A block made where its function's captures are in force: what it captures, what the function
    takes and what it answers. -/
structure Site where
  captures : List Ty
  takes : List Ty
  answers : Ty

/-- What an object is lowered over: its declarations, the addresses its tokens stand at, the
    functions it lifts, and the runtime it calls. -/
structure Lowerings (R Key : Type) [LinearOrder Key] where
  declared : Declared
  token : Case → ℕ
  token_injective : Function.Injective token
  site : ℕ → Site
  primitives : Primitives R Key

def Lowerings.tokenWord {R Key : Type} [LinearOrder Key] (lowering : Lowerings R Key) (case : Case) :
    BitVec 64 :=
  BitVec.ofNat 64 (lowering.token case)

theorem Primitives.compare_eq_zero {R Key : Type} [LinearOrder Key] (primitives : Primitives R Key)
    (p : Prim) (a b : R) :
    primitives.compare p a b = 0 ↔ primitives.names p a = primitives.names p b := by
  rw [← cmp_eq_eq_iff (primitives.names p a), compare]
  cases cmp (primitives.names p a) (primitives.names p b) <;> decide

def Val.bits {R : Type} : Val R → BitVec 64
  | .word w => w
  | _ => 0#64

section Plain

def Case.place : Case → ℕ
  | .declared key => 3 * Encodable.encode (key.toList.map Char.toNat)
  | .primitive p => 3 * p.ctorIdx + 1
  | .language case => 3 * case.ctorIdx + 2

theorem Case.place_injective : Function.Injective Case.place := by
  intro a b h
  cases a with
  | declared a =>
    cases b with
    | declared b =>
      have hlists := Encodable.encode_injective (Nat.eq_of_mul_eq_mul_left (by omega) h)
      have hchar : Function.Injective Char.toNat := fun c d hcd => Char.toNat_inj.mp hcd
      rw [String.toList_inj.mp (hchar.list_map hlists)]
    | primitive p | language case =>
      simp only [Case.place] at h
      omega
  | primitive p =>
    cases b with
    | declared b | language case =>
      simp only [Case.place] at h
      omega
    | primitive q =>
      cases p <;> cases q <;> first | rfl | cases h
  | language case =>
    cases b with
    | declared b | primitive q =>
      simp only [Case.place] at h
      omega
    | language other =>
      cases case <;> cases other <;> first | rfl | cases h

def tenths : Primitives ℕ ℕ where
  names _ kept := kept / 10
  hash _ kept := BitVec.ofNat 64 (kept / 10)
  hash_names _ _ _ h := congrArg (BitVec.ofNat 64) h

def Lowerings.plain (declared : Declared) : Lowerings ℕ ℕ where
  declared := declared
  token := Case.place
  token_injective := Case.place_injective
  site _ := ⟨[], [], .never⟩
  primitives := tenths

end Plain

end SoutherNative.Values
