import SoutherNative.JsonText

set_option autoImplicit false

/-!
# Every text handed over is said

What `Unescaped` trusts of a text the parser has checked: each `String` and each `Key` event of a
reading, of a document refused later too, carries text of the grammar. `Text::says` walks what the
text says beside the bytes asked about.
-/
namespace SoutherNative.JsonText
open Utf8 JsonScanner JsonGrammar JsonSyntax

/-- The loop of `says`, from what is still to be said. -/
def Unescaped.saysEach (said : Unescaped) : Bytes → Except Panic Bool
  | [] => said.next.map Option.isNone
  | byte :: bytes =>
    match said.next with
    | .error panic => .error panic
    | .ok none => .ok false
    | .ok (some (b, said)) => if b = byte then said.saysEach bytes else .ok false

def textSays (text : Text) (bytes : Bytes) : Except Panic Bool :=
  Unescaped.saysEach ⟨text.written, []⟩ bytes

namespace Unescaped

theorem collect_cases {u : Unescaped} {full : Bytes} (h : u.collect = .ok full) :
    (u.next = .ok none ∧ full = []) ∨
      ∃ b v rest, u.next = .ok (some (b, v)) ∧ v.collect = .ok rest ∧ full = b :: rest := by
  rw [collect] at h
  split at h
  · cases h
  · rename_i hnext
    exact .inl ⟨hnext, (Except.ok.inj h).symm⟩
  · rename_i b v hnext
    cases hv : v.collect with
    | error panic => simp [hv] at h
    | ok rest =>
      simp only [hv, Except.ok.injEq] at h
      exact .inr ⟨b, v, rest, hnext, hv, h.symm⟩

theorem saysEach_collect {u : Unescaped} {full : Bytes} (h : u.collect = .ok full) (bytes : Bytes) :
    u.saysEach bytes = .ok (decide (bytes = full)) := by
  induction bytes generalizing u full with
  | nil =>
    rcases collect_cases h with ⟨hnext, rfl⟩ | ⟨b, v, rest, hnext, -, rfl⟩
    · rw [saysEach, hnext]
      rfl
    · rw [saysEach, hnext]
      rfl
  | cons byte bytes ih =>
    rcases collect_cases h with ⟨hnext, rfl⟩ | ⟨b, v, rest, hnext, hrest, rfl⟩
    · rw [saysEach, hnext]
      rfl
    · rw [saysEach, hnext]
      by_cases hb : b = byte
      · simp only [hb, ↓reduceIte, ih hrest, List.cons.injEq, true_and]
      · have hne : ¬byte :: bytes = b :: rest := fun heq => hb (List.cons.inj heq).1.symm
        simp only [hb, ↓reduceIte, decide_eq_false hne]

end Unescaped

theorem writes_text {d : Doc} {b : Bytes} {event : Event} {text : Text} (h : Writes d b)
    (hd : d.events = [event]) (he : event = .string text ∨ event = .key text) :
    IsText text.written := by
  cases h with
  | string htext =>
    obtain rfl := List.head_eq_of_cons_eq hd
    rcases he with he | he
    · cases he
      exact htext
    · cases he
  | _ =>
    simp only [Doc.events, List.cons_append, List.cons.injEq, List.append_eq_nil_iff,
      List.cons_ne_nil, and_false] at hd
    try
      rw [← hd.1] at he
      rcases he with he | he <;> cases he

theorem stepped_text {p q : Parser} {event : Event} {text : Text} (h : Stepped p event q)
    (he : event = .string text ∨ event = .key text) : IsText text.written := by
  cases h with
  | scalar _ hw hd => exact writes_text hw hd he
  | key _ htext =>
    rcases he with he | he
    · cases he
    · cases he
      exact htext
  | _ => rcases he with he | he <;> cases he

theorem readFrom_text {p : Parser} {event : Event} {text : Text}
    (h : event ∈ (readFrom p).1) (he : event = .string text ∨ event = .key text) :
    IsText text.written := by
  fun_induction readFrom p with
  | case1 => cases h
  | case2 => cases h
  | case3 p e q hs events answer hq ih =>
    rw [hq] at ih
    rcases List.mem_cons.mp h with rfl | h
    · exact stepped_text (step_stepped hs) he
    · exact ih h

/-- Every text a reading hands over spells one string, iterating it panics nowhere and answers the
UTF-8 of that string, and it says those bytes and no others. -/
theorem texts_say_what_they_spell {document : Bytes} {event : Event} {text : Text}
    (h : event ∈ (read document).1) (he : event = .string text ∨ event = .key text) :
    ∃ cs, Spells text.written cs ∧ (∀ ds, Spells text.written ds → ds = cs) ∧
      bytes text = .ok (encode cs) ∧
      ∀ asked, textSays text asked = .ok (decide (asked = encode cs)) := by
  obtain ⟨cs, hcs⟩ := readFrom_text h he
  have hbytes := bytes_spells hcs
  refine ⟨cs, hcs, ?_, hbytes, Unescaped.saysEach_collect hbytes⟩
  intro ds hds
  have hsame := (bytes_spells hds).symm.trans hbytes
  exact encode_injective (Except.ok.inj hsame)

/-- Two halves of a pair are said as the four bytes of one scalar value. -/
theorem texts_say_what_they_spell_pair :
    textSays ⟨word "\\ud83d\\ude00"⟩ [0xf0, 0x9f, 0x98, 0x80] = .ok true := by
  have hhigh : hex4 [byte 'd', byte '8', byte '3', byte 'd'] = some 0xd83d := by decide
  have hlow : hex4 [byte 'd', byte 'e', byte '0', byte '0'] = some 0xde00 := by decide
  have hescape := Escape.pair hhigh hlow (by decide) (by decide)
  have hspells := Spells.cons (.escape hescape) .nil
  have hword : word "\\ud83d\\ude00" = [byte '\\', byte 'u', byte 'd', byte '8', byte '3', byte 'd',
      byte '\\', byte 'u', byte 'd', byte 'e', byte '0', byte '0'] := by decide
  rw [List.append_nil, ← hword] at hspells
  have hread : read (quoted ⟨word "\\ud83d\\ude00"⟩) =
      ([.string ⟨word "\\ud83d\\ude00"⟩], .ok ()) := by
    have hwrites : Writes (.string ⟨word "\\ud83d\\ude00"⟩) (quoted ⟨word "\\ud83d\\ude00"⟩) :=
      .string ⟨_, hspells⟩
    have hdocument : Document (.string ⟨word "\\ud83d\\ude00"⟩)
        (quoted ⟨word "\\ud83d\\ude00"⟩) :=
      ⟨[], _, [], (List.append_nil _).symm, nofun, hwrites, nofun⟩
    exact JsonAccepting.read_document hdocument (Nat.zero_le _)
  have hhanded : (.string ⟨word "\\ud83d\\ude00"⟩ : Event) ∈
      (read (quoted ⟨word "\\ud83d\\ude00"⟩)).1 := by
    rw [hread]
    exact List.mem_singleton_self _
  obtain ⟨cs, -, hone, -, hspelt⟩ := texts_say_what_they_spell hhanded (.inl rfl)
  obtain rfl := hone _ hspells
  rw [hspelt]
  rfl

end SoutherNative.JsonText
