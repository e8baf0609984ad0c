import SoutherNative.HostSymbols
import SoutherNative.PrefixCode
import SoutherNative.Utf8

set_option autoImplicit false

/-!
# What a callback is exported from Go as

The C symbol of an export is global in a program, so it says which callback it is of: what kind, the
binding's import path, the module and the name, each encoded so that the whole reads back.
-/
namespace SoutherNative.GoNames

open HostSymbols

inductive Kind
  | behavior | function
  deriving DecidableEq

/-- `i` for a behavior a host implements, `f` for a function type. -/
def Kind.letter : Kind → Char
  | .behavior => 'i'
  | .function => 'f'

/-- `it < 0x80 && Character.isLetterOrDigit(it)`. -/
def isLetterOrDigit (each : UInt8) : Bool :=
  each < 0x80 && (Char.ofNat each.toNat).isAlphanum

/-- `String.format("%02x", each & 0xff)`. -/
def hex02 (each : UInt8) : Spelling :=
  [Nat.digitChar (each.toNat / 16), Nat.digitChar (each.toNat % 16)]

/-- What `encoded` appends for a byte. -/
def encodedByte (each : UInt8) : Spelling :=
  if isLetterOrDigit each then [Char.ofNat each.toNat]
  else if Char.ofNat each.toNat = '_' then ['_', '_']
  else ['_', 'u'] ++ hex02 each ++ ['_']

def encoded (text : Spelling) : Spelling := (Utf8.encode text).flatMap encodedByte

@[irreducible] def symbolStart : Spelling := "souther_host_z".toList

/-- The `"_z"` between the parts. -/
def separator : Spelling := ['_', 'z']

def hostSymbol (kind : Kind) (importPath module name : Spelling) : Spelling :=
  symbolStart ++ [kind.letter] ++ separator ++ encoded importPath ++ separator ++ encoded module ++
    separator ++ encoded name

theorem char_of_byte {a b : UInt8} (h : Char.ofNat a.toNat = Char.ofNat b.toNat) : a = b := by
  have hvalid : ∀ n < 256, (Char.ofNat n).toNat = n := by
    intro n hn
    have hchar : n.isValidChar := .inl (by omega)
    rw [Char.ofNat, dif_pos hchar]
    rfl
  have hbytes := congrArg Char.toNat h
  rw [hvalid _ a.toNat_lt, hvalid _ b.toNat_lt] at hbytes
  exact UInt8.toNat_inj.mp hbytes

theorem hex02_inj {a b : UInt8} (h : hex02 a = hex02 b) : a = b := by
  rw [hex02, hex02, List.cons.injEq, List.cons.injEq] at h
  have ha := a.toNat_lt
  have hb := b.toNat_lt
  have hhigh : a.toNat / 16 = b.toNat / 16 := digitChar_inj (by omega) (by omega) h.1
  have hlow : a.toNat % 16 = b.toNat % 16 := digitChar_inj (by omega) (by omega) h.2.1
  apply UInt8.toNat_inj.mp
  omega

theorem encodedByte_cases (b : UInt8) :
    (encodedByte b = [Char.ofNat b.toNat] ∧ (Char.ofNat b.toNat).isAlphanum = true) ∨
      (encodedByte b = ['_', '_'] ∧ Char.ofNat b.toNat = '_') ∨
      encodedByte b = '_' :: 'u' :: (hex02 b ++ ['_']) := by
  simp only [encodedByte]
  split_ifs with halnum hunder
  · rw [isLetterOrDigit, Bool.and_eq_true] at halnum
    exact .inl ⟨rfl, halnum.2⟩
  · exact .inr (.inl ⟨rfl, hunder⟩)
  · exact .inr (.inr rfl)

theorem encodedByte_append {a b : UInt8} {xs ys : Spelling}
    (h : encodedByte a ++ xs = encodedByte b ++ ys) : a = b ∧ xs = ys := by
  rcases encodedByte_cases a with ⟨ha, halnum⟩ | ⟨ha, hunder⟩ | ha
  · have hne := underscore_not_alphanum halnum
    rcases encodedByte_cases b with ⟨hb, -⟩ | ⟨hb, -⟩ | hb
    · rw [ha, hb, List.cons_append, List.cons_append, List.cons.injEq] at h
      exact ⟨char_of_byte h.1, h.2⟩
    · rw [ha, hb] at h
      exact absurd (List.cons.inj h).1 hne
    · rw [ha, hb] at h
      exact absurd (List.cons.inj h).1 hne
  · rcases encodedByte_cases b with ⟨hb, halnum⟩ | ⟨hb, hunder'⟩ | hb
    · rw [ha, hb] at h
      exact absurd (List.cons.inj h).1.symm (underscore_not_alphanum halnum)
    · rw [ha, hb] at h
      exact ⟨char_of_byte (hunder.trans hunder'.symm), (List.cons.inj (List.cons.inj h).2).2⟩
    · rw [ha, hb] at h
      exact absurd (List.cons.inj (List.cons.inj h).2).1 (by decide)
  · rcases encodedByte_cases b with ⟨hb, halnum⟩ | ⟨hb, -⟩ | hb
    · rw [ha, hb] at h
      exact absurd (List.cons.inj h).1.symm (underscore_not_alphanum halnum)
    · rw [ha, hb] at h
      exact absurd (List.cons.inj (List.cons.inj h).2).1 (by decide)
    · rw [ha, hb, List.cons_append, List.cons_append, List.cons_append, List.cons_append,
        List.cons.injEq, List.cons.injEq, List.append_assoc, List.append_assoc] at h
      obtain ⟨hhex, hrest⟩ := List.append_inj h.2.2 rfl
      exact ⟨hex02_inj hhex, (List.cons.inj hrest).2⟩

theorem encodedByte_ne_nil (b : UInt8) : encodedByte b ≠ [] := by
  intro hnil
  rcases encodedByte_cases b with ⟨hb, -⟩ | ⟨hb, -⟩ | hb
  all_goals
    rw [hb] at hnil
    cases hnil

def byteCode : PrefixCode UInt8 Char := ⟨encodedByte, encodedByte_append⟩

theorem separator_stops (rest : Spelling) : byteCode.Stops (separator ++ rest) := by
  intro b xs h
  change encodedByte b ++ xs = '_' :: 'z' :: rest at h
  rcases encodedByte_cases b with ⟨hb, halnum⟩ | ⟨hb, -⟩ | hb
  · rw [hb] at h
    exact underscore_not_alphanum halnum (List.cons.inj h).1
  · rw [hb] at h
    exact absurd (List.cons.inj (List.cons.inj h).2).1 (by decide)
  · rw [hb] at h
    exact absurd (List.cons.inj (List.cons.inj h).2).1 (by decide)

theorem encoded_append {text other xs ys : Spelling} (hx : byteCode.Stops xs)
    (hy : byteCode.Stops ys) (h : encoded text ++ xs = encoded other ++ ys) :
    text = other ∧ xs = ys := by
  obtain ⟨hbytes, hxs⟩ := PrefixCode.spell_append hx hy h
  exact ⟨Utf8.encode_injective hbytes, hxs⟩

theorem end_stops : byteCode.Stops [] := byteCode.stops_nil encodedByte_ne_nil

theorem encoded_injective : Function.Injective encoded := by
  intro text other h
  apply And.left
  apply encoded_append end_stops end_stops
  rw [h]

theorem encodedByte_goes_on (b : UInt8) : (encodedByte b).all goesOn = true := by
  have hhex : (hex02 b).all goesOn = true := by
    have hb := b.toNat_lt
    rw [hex02, List.all_cons, List.all_cons, List.all_nil,
      goesOn_of_alphanum (digitChar_alphanum (by omega)),
      goesOn_of_alphanum (digitChar_alphanum (by omega))]
    rfl
  rcases encodedByte_cases b with ⟨hb, halnum⟩ | ⟨hb, -⟩ | hb
  · rw [hb, List.all_cons, goesOn_of_alphanum halnum, List.all_nil, Bool.true_and]
  · rw [hb]
    decide
  · rw [hb, List.all_cons, List.all_cons, List.all_append, hhex]
    decide

theorem encoded_goes_on (text : Spelling) : (encoded text).all goesOn = true := by
  rw [encoded, List.all_flatMap, List.all_eq_true]
  intro b _
  exact encodedByte_goes_on b

theorem hostSymbol_eq (kind : Kind) (importPath module name : Spelling) :
    hostSymbol kind importPath module name =
      symbolStart ++ (kind.letter :: (separator ++ (encoded importPath ++
        (separator ++ (encoded module ++ (separator ++ (encoded name ++ []))))))) := by
  simp only [hostSymbol, List.append_assoc, List.append_nil, List.nil_append,
    List.cons_append]

theorem symbolStart_cons : ∃ rest, symbolStart = 's' :: rest ∧ rest.all goesOn = true := by
  unfold symbolStart
  exact ⟨"outher_host_z".toList, rfl, by simp [goesOn]⟩

theorem hostSymbol_identifier (kind : Kind) (importPath module name : Spelling) :
    identifier (hostSymbol kind importPath module name) = true := by
  have hletter : goesOn kind.letter = true := by cases kind <;> decide
  have hseparator : separator.all goesOn = true := by decide
  obtain ⟨rest, hstart, hrest⟩ := symbolStart_cons
  rw [hostSymbol_eq, hstart, List.cons_append, identifier]
  simp only [List.all_append, List.all_cons, hletter, hseparator, hrest, encoded_goes_on,
    List.all_nil]
  decide

theorem letter_injective : Function.Injective Kind.letter := by
  intro kind other h
  cases kind <;> cases other <;> first | rfl | exact absurd h (by decide)

/-- No two callbacks share a C symbol, and each has a C identifier; a text is encoded one way. -/
theorem callbacks_never_share_a_symbol :
    (∀ kind importPath module name kind' importPath' module' name',
      hostSymbol kind importPath module name = hostSymbol kind' importPath' module' name' →
        kind = kind' ∧ importPath = importPath' ∧ module = module' ∧ name = name') ∧
    (∀ kind importPath module name,
      identifier (hostSymbol kind importPath module name) = true) ∧
    Function.Injective encoded := by
  refine ⟨?_, hostSymbol_identifier, encoded_injective⟩
  intro kind importPath module name kind' importPath' module' name' h
  rw [hostSymbol_eq, hostSymbol_eq] at h
  have hafter := List.append_cancel_left h
  rw [List.cons.injEq] at hafter
  obtain ⟨rfl, hmodule⟩ := encoded_append (separator_stops _) (separator_stops _)
    (List.append_cancel_left hafter.2)
  obtain ⟨rfl, hname⟩ := encoded_append (separator_stops _) (separator_stops _)
    (List.append_cancel_left hmodule)
  obtain ⟨rfl, -⟩ := encoded_append end_stops end_stops (List.append_cancel_left hname)
  exact ⟨letter_injective hafter.1, rfl, rfl, rfl⟩

end SoutherNative.GoNames
