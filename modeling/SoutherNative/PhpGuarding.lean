import Mathlib
import SoutherNative.PhpCrossing

set_option autoImplicit false

/-!
# What is taken for a value it is not

A parameter and an element of a list are typed, and a `Session` types what it is handed. What stands
in a tuple's array or a `Some` is typed by neither, so that a type with such a place takes what is
no value of it, and a type without one never does. What an implementation answers is asked whether
it is a value of its type first, and then only an element of a list is not.
-/
namespace SoutherNative.PhpCrossing

/-- Whether nothing is taken as a value of a type that is none, where PHP types the place or, inside
a `Some`, where it does not: a tuple's array is never asked what is in it. -/
def Given.guarded : Given → Bool → Bool
  | .whole (.primitive .INT), inside | .whole (.primitive .BOOL), inside => !inside
  | .whole (.primitive _), _ => true
  | .whole (.product _), inside | .whole (.sum _ _), inside => !inside
  | .oneOf first rest, inside =>
    !inside || (first :: rest).all fun member => member.carried.isSome
  | .optional of, inside =>
    if of.nullable then !inside && of.guarded true else of.guarded inside
  | .tuple _, _ => false
  | .list element, _ => element.guarded false
  | .function _, _ => true

section Wholes

variable {php : Php}

theorem borrowed_eq_some {value : PhpValue} {word : Word} (h : borrowed value = some word) :
    ∃ name pointer, value = .handle name pointer true ∧ word = .value pointer := by
  cases value with
  | handle name pointer borrows =>
    cases borrows with
    | true => exact ⟨name, pointer, rfl, (Option.some.inj h).symm⟩
    | false => cases h
  | _ => cases h

theorem isWord_of_holds {is : Whole} {value : PhpValue} {word : Word}
    (hholds : is.holds php value = true) (h : is.given php value = some word) :
    IsWord php is value word := by
  cases is with
  | primitive is =>
    rw [Whole.given] at h
    rw [Whole.holds] at hholds
    cases is <;> cases value <;>
      simp_all [Primitive.holds, Primitive.given, Php.toInt, Php.isTrue]
    case INT.int => exact h ▸ .int _
    case BOOL.bool => exact h ▸ .bool _
    case STRING.string =>
      obtain ⟨text, htext, rfl⟩ := h
      exact .string htext
    all_goals
      obtain rfl := hholds
      obtain rfl := h
      exact .numbers _ (by decide) (by decide) (by decide)
  | product fqcn =>
    obtain ⟨name, pointer, rfl, rfl⟩ := borrowed_eq_some h
    exact .product pointer hholds
  | sum iface codec =>
    obtain ⟨name, pointer, rfl, rfl⟩ := borrowed_eq_some h
    exact .sum pointer hholds

theorem holds_of_given {is : Primitive} {value : PhpValue} {word : Word} (hint : is ≠ .INT)
    (hbool : is ≠ .BOOL) (h : is.given php value = some word) : is.holds value = true := by
  cases is <;> cases value <;> simp_all [Primitive.holds, Primitive.given]

theorem isWord_oneOf {first : Whole} {rest : List Whole} {inside : Bool} {value : PhpValue}
    {word : Word} (hguarded : (Given.oneOf first rest).guarded inside = true)
    (htyped : inside = false → (Given.oneOf first rest).typed php value = true)
    (h : oneOfGiven php (first :: rest) value = some word) :
    Are php (.oneOf first rest) value [word] := by
  rw [oneOfGiven] at h
  cases hfind : (first :: rest).find? fun member =>
      member.carried.isSome && member.holds php value with
  | some member =>
    rw [hfind] at h
    have hmem := List.mem_of_find?_eq_some hfind
    have hholds := List.find?_some hfind
    rw [Bool.and_eq_true] at hholds
    obtain ⟨carried, hcarried, rfl⟩ := Option.map_eq_some_iff.mp h
    cases member with
    | primitive is => exact .carried hmem (isWord_of_holds hholds.2 hcarried)
    | product fqcn => cases hholds.1
    | sum iface codec => cases hholds.1
  | none =>
    rw [hfind] at h
    dsimp only at h
    split_ifs at h with hany
    -- a member handed over as it is, of the class that PHP took the value as one of
    cases inside with
    | true =>
      obtain ⟨member, hmem, hnone⟩ := List.any_eq_true.mp hany
      have hsome := List.all_eq_true.mp hguarded member hmem
      cases hcarried : member.carried <;> simp [hcarried] at hnone hsome
    | false =>
      obtain ⟨member, hmem, hholds⟩ := List.any_eq_true.mp (htyped rfl)
      have hnot := List.find?_eq_none.mp hfind member hmem
      rw [hholds, Bool.and_true] at hnot
      cases member with
      | primitive is => exact absurd rfl hnot
      | product fqcn => exact .declared hmem rfl (isWord_of_holds hholds h)
      | sum iface codec => exact .declared hmem rfl (isWord_of_holds hholds h)

end Wholes

section Guarded

variable {php : Php}

/-- Where nothing is taken for a value it is not, what is handed over is the value's words. -/
theorem are_of_guarded (g : Given) {inside : Bool} {value : PhpValue} {words : List Word}
    (hguarded : g.guarded inside = true)
    (htyped : inside = false → g.typed php value = true)
    (h : g.given php value = some words) : Are php g value words := by
  cases g with
  | whole is =>
    obtain ⟨word, hword, rfl⟩ := Option.map_eq_some_iff.mp h
    cases inside with
    | false => exact .whole (isWord_of_holds (htyped rfl) hword)
    | true =>
      cases is with
      | primitive is =>
        refine .whole (isWord_of_holds (holds_of_given ?_ ?_ hword) hword)
        · rintro rfl
          cases hguarded
        · rintro rfl
          cases hguarded
      | product fqcn => cases hguarded
      | sum iface codec => cases hguarded
  | oneOf first rest =>
    obtain ⟨word, hword, rfl⟩ := Option.map_eq_some_iff.mp h
    exact isWord_oneOf hguarded htyped hword
  | optional of =>
    by_cases hvalue : value = .null
    · subst hvalue
      obtain rfl := Option.some.inj h
      exact .absent
    · rw [given_optional hvalue] at h
      rw [typed_optional hvalue] at htyped
      rw [Given.guarded] at hguarded
      split_ifs at h hguarded htyped with hnullable
      · rw [Bool.and_eq_true] at hguarded
        cases inside with
        | true => cases hguarded.1
        | false =>
          cases value with
          | some held =>
            obtain ⟨words, hwords, rfl⟩ := Option.map_eq_some_iff.mp h
            exact .wrapped hnullable (are_of_guarded of hguarded.2 (fun hin => by cases hin) hwords)
          | _ => cases htyped rfl
      · obtain ⟨words, hwords, rfl⟩ := Option.map_eq_some_iff.mp h
        exact .present (by simpa using hnullable) (are_of_guarded of hguarded htyped hwords)
  | tuple members => cases hguarded
  | list element =>
    rw [Given.guarded] at hguarded
    cases value with
    | array entries =>
      rw [Given.given] at h
      split_ifs at h with hlist
      obtain ⟨elements, helements, rfl⟩ := Option.map_eq_some_iff.mp h
      rw [← indexed_snd entries hlist]
      refine .list ?_
      clear hlist h htyped
      induction entries generalizing elements with
      | nil =>
        obtain rfl := Option.some.inj helements
        exact .nil
      | cons entry entries ih =>
        rw [List.mapM_cons] at helements
        obtain ⟨words, hwords, hafter⟩ := Option.bind_eq_some_iff.mp helements
        obtain ⟨rest, hrest, heq⟩ := Option.bind_eq_some_iff.mp hafter
        obtain rfl := Option.some.inj heq
        split_ifs at hwords with hentry
        exact .cons (are_of_guarded element hguarded (fun _ => hentry) hwords) (ih rest hrest)
    | _ => cases h
  | function slot =>
    cases value with
    | closure calls =>
      obtain rfl := Option.some.inj h
      exact .function
    | _ => cases h

def Whole.sample : Whole → PhpValue
  | .primitive .INT => .int 0
  | .primitive .BOOL => .bool false
  | .primitive .STRING => .string []
  | .primitive is => .numbers is []
  | .product fqcn => .handle fqcn 0 true
  | .sum iface _ => .handle iface 0 true

theorem Whole.holds_sample (is : Whole) : is.holds php is.sample = true := by
  cases is with
  | primitive is => cases is <;> rfl
  | product fqcn => exact php.instanceOf_self fqcn
  | sum iface codec => exact php.instanceOf_self iface

theorem Whole.given_sample (is : Whole) : ∃ word, is.given php is.sample = some word := by
  cases is with
  | primitive is =>
    cases is with
    | STRING => exact ⟨.text [], by simp [Whole.given, sample, Primitive.given, php.admits_empty]⟩
    | _ => exact ⟨_, rfl⟩
  | product fqcn => exact ⟨_, rfl⟩
  | sum iface codec => exact ⟨_, rfl⟩

theorem oneOf_handle {members : List Whole} {name : String} {pointer : ℕ}
    (hany : (members.any fun member => member.carried.isNone) = true) :
    oneOfGiven php members (.handle name pointer true) = some (.value pointer) := by
  have hfind : (members.find? fun member =>
      member.carried.isSome && member.holds php (.handle name pointer true)) = none := by
    apply List.find?_eq_none.mpr
    intro member _ hboth
    rw [Bool.and_eq_true] at hboth
    cases member with
    | primitive is => cases is <;> cases hboth.2
    | product fqcn => cases hboth.1
    | sum iface codec => cases hboth.1
  rw [oneOfGiven, hfind]
  dsimp only
  rw [if_pos hany]
  rfl

theorem oneOf_sample (first : Whole) (rest : List Whole) :
    ∃ word, oneOfGiven php (first :: rest) first.sample = some word := by
  cases first with
  | primitive is =>
    obtain ⟨word, hword⟩ := @Whole.given_sample php (.primitive is)
    have hholds := @Whole.holds_sample php (.primitive is)
    refine ⟨.carried is word, ?_⟩
    rw [oneOfGiven, List.find?_cons_of_pos (by rw [hholds]; rfl)]
    dsimp only
    rw [hword]
    rfl
  | product fqcn => exact ⟨_, oneOf_handle rfl⟩
  | sum iface codec => exact ⟨_, oneOf_handle rfl⟩

mutual

theorem exists_given (g : Given) :
    ∃ value words, g.typed php value = true ∧ g.given php value = some words := by
  cases g with
  | whole is =>
    obtain ⟨word, hword⟩ := @Whole.given_sample php is
    exact ⟨is.sample, [word], is.holds_sample, by rw [Given.given, hword]; rfl⟩
  | oneOf first rest =>
    obtain ⟨word, hword⟩ := @oneOf_sample php first rest
    refine ⟨first.sample, [word], ?_, by rw [Given.given, hword]; rfl⟩
    exact List.any_eq_true.mpr ⟨first, List.mem_cons_self, first.holds_sample⟩
  | optional of => exact ⟨.null, _, rfl, rfl⟩
  | tuple members =>
    obtain ⟨values, -, hvalues⟩ := exists_givenEach members
    obtain ⟨words, hwords⟩ := hvalues [] []
    exact ⟨.array (indexed ([] ++ values ++ [])), words, rfl, hwords⟩
  | list element => exact ⟨.array [], _, rfl, rfl⟩
  | function slot => exact ⟨.closure 0, _, rfl, rfl⟩

theorem exists_givenEach (members : List Given) : ∃ values : List PhpValue,
    values.length = members.length ∧ ∀ front tail, ∃ words,
      givenEach php members (.array (indexed (front ++ values ++ tail))) front.length =
        some words := by
  cases members with
  | nil => exact ⟨[], rfl, fun _ _ => ⟨[], rfl⟩⟩
  | cons member members =>
    obtain ⟨value, words, -, hvalue⟩ := exists_given member
    obtain ⟨values, hlength, hvalues⟩ := exists_givenEach members
    refine ⟨value :: values, by simp [hlength], fun front tail => ?_⟩
    obtain ⟨rest, hrest⟩ := hvalues (front ++ [value]) tail
    refine ⟨words ++ rest, ?_⟩
    rw [List.length_append, List.length_singleton, List.append_assoc, List.append_assoc,
      List.singleton_append] at hrest
    rw [List.append_assoc, List.cons_append, givenEach, at_indexed, Option.bind_some, hvalue,
      Option.bind_some, hrest]
    rfl

end

theorem AreEach.values_length {members : List Given} {values : List PhpValue} {words : List Word}
    (h : AreEach php members values words) : values.length = members.length := by
  induction members generalizing values words with
  | nil => cases h; rfl
  | cons member members ih =>
    cases h with
    | cons hfirst hrest => rw [List.length_cons, List.length_cons, ih hrest]

theorem exists_foreign (members : List Whole) : ∃ name, ∀ member ∈ members, ∀ word,
    ¬IsWord php member (.handle name 0 true) word := by
  obtain ⟨name, hname⟩ := php.foreign (members.map Whole.phpType)
  refine ⟨name, ?_⟩
  intro member hmem word hword
  have hnot := hname member.phpType (List.mem_map_of_mem hmem)
  cases hword with
  | product pointer his => exact absurd (his.symm.trans hnot) (by decide)
  | sum pointer his => exact absurd (his.symm.trans hnot) (by decide)

theorem taken_whole {is : Whole} (h : (Given.whole is).guarded true = false) :
    ∃ value words, value ≠ .null ∧ (Given.whole is).given php value = some words ∧
      ¬Are php (.whole is) value words := by
  have hnone : ∀ {value : PhpValue} {word : Word}, ¬IsWord php is value word →
      ¬Are php (.whole is) value [word] := by
    intro value word hnot hare
    cases hare with
    | whole hword => exact hnot hword
  have hhandle : (∀ value, is.given php value = borrowed value) →
      ∃ value words, value ≠ .null ∧ (Given.whole is).given php value = some words ∧
        ¬Are php (.whole is) value words := by
    intro hborrowed
    obtain ⟨name, hname⟩ := @exists_foreign php [is]
    refine ⟨.handle name 0 true, [.value 0], nofun, ?_, hnone (hname is (by simp) _)⟩
    rw [Given.given, hborrowed]
    rfl
  cases is with
  | primitive is =>
    cases is with
    | INT => exact ⟨.bool true, [.number 1], nofun, rfl, hnone nofun⟩
    | BOOL => exact ⟨.int 1, [.number 1], nofun, rfl, hnone nofun⟩
    | _ => cases h
  | product fqcn => exact hhandle fun _ => rfl
  | sum iface codec => exact hhandle fun _ => rfl

theorem taken_oneOf {first : Whole} {rest : List Whole}
    (h : (Given.oneOf first rest).guarded true = false) :
    ∃ value words, value ≠ .null ∧ (Given.oneOf first rest).given php value = some words ∧
      ¬Are php (.oneOf first rest) value words := by
  obtain ⟨name, hname⟩ := @exists_foreign php (first :: rest)
  have hany : ((first :: rest).any fun member => member.carried.isNone) = true := by
    rw [Given.guarded, Bool.not_true, Bool.false_or] at h
    obtain ⟨member, hmem, hnot⟩ := List.all_eq_false.mp h
    refine List.any_eq_true.mpr ⟨member, hmem, ?_⟩
    cases hcarried : member.carried with
    | none => rfl
    | some is =>
      rw [hcarried] at hnot
      exact absurd rfl hnot
  refine ⟨.handle name 0 true, [.value 0], nofun, ?_, ?_⟩
  · rw [Given.given, oneOf_handle hany]
    rfl
  · intro hare
    cases hare with
    | declared hmem _ hword => exact hname _ hmem _ hword

theorem taken_unwrapped {of : Given} (hnullable : of.nullable = true) :
    (Given.optional of).given php (.int 5) = some (.number 1 :: of.absent) ∧
      ¬Are php (.optional of) (.int 5) (.number 1 :: of.absent) := by
  cases of with
  | optional of =>
    refine ⟨rfl, fun hare => ?_⟩
    cases hare with
    | present hnot _ => cases hnot
  | _ => cases hnullable

theorem taken_tuple (members : List Given) : ∃ values : List PhpValue, ∃ words,
    (Given.tuple members).given php (.array (indexed values)) = some words ∧
      ¬Are php (.tuple members) (.array (indexed values)) words := by
  obtain ⟨values, hlength, hvalues⟩ := @exists_givenEach php members
  obtain ⟨words, hwords⟩ := hvalues [] [.null]
  rw [List.nil_append] at hwords
  refine ⟨values ++ [PhpValue.null], words, hwords, fun hare => ?_⟩
  generalize harray : PhpValue.array (indexed (values ++ [.null])) = value at hare
  cases hare with
  | tuple heach =>
    have hsame := congrArg List.length (indexed_inj (PhpValue.array.inj harray))
    rw [heach.values_length, List.length_append, hlength] at hsame
    exact absurd hsame (Nat.succ_ne_self _)

theorem exists_taken (g : Given) {inside : Bool} (h : g.guarded inside = false) :
    ∃ value words, value ≠ .null ∧ (inside = false → g.typed php value = true) ∧
      g.given php value = some words ∧ ¬Are php g value words := by
  cases g with
  | whole is =>
    cases inside with
    | false =>
      cases is with
      | primitive is => cases is <;> cases h
      | _ => cases h
    | true =>
      obtain ⟨value, words, hvalue, hgiven, hnot⟩ := @taken_whole php _ h
      exact ⟨value, words, hvalue, nofun, hgiven, hnot⟩
  | oneOf first rest =>
    cases inside with
    | false => cases h
    | true =>
      obtain ⟨value, words, hvalue, hgiven, hnot⟩ := @taken_oneOf php _ _ h
      exact ⟨value, words, hvalue, nofun, hgiven, hnot⟩
  | optional of =>
    rw [Given.guarded] at h
    split_ifs at h with hnullable
    · cases inside with
      | true =>
        obtain ⟨hgiven, hnot⟩ := @taken_unwrapped php _ hnullable
        exact ⟨.int 5, _, nofun, nofun, hgiven, hnot⟩
      | false =>
        obtain ⟨value, words, hvalue, -, hgiven, hnot⟩ := exists_taken of h
        have hsome : PhpValue.some value ≠ .null := nofun
        refine ⟨.some value, .number 1 :: words, hsome, ?_, ?_, ?_⟩
        · intro _
          rw [typed_optional hsome, if_pos hnullable]
        · rw [given_optional hsome, if_pos hnullable, Php.held, Option.bind_some, hgiven]
          rfl
        · intro hare
          cases hare with
          | wrapped _ hheld => exact hnot hheld
          | present hnone _ => exact absurd (hnullable.symm.trans hnone) (by decide)
    · obtain ⟨value, words, hvalue, htyped, hgiven, hnot⟩ := exists_taken of h
      refine ⟨value, .number 1 :: words, hvalue, ?_, ?_, ?_⟩
      · rw [typed_optional hvalue, if_neg hnullable]
        exact htyped
      · rw [given_optional hvalue, if_neg hnullable, Option.bind_some, hgiven]
        rfl
      · intro hare
        cases hare with
        | wrapped hnone _ => exact hnullable hnone
        | present _ hheld => exact hnot hheld
  | tuple members =>
    obtain ⟨values, words, hgiven, hnot⟩ := @taken_tuple php members
    exact ⟨.array (indexed values), words, nofun, fun _ => rfl, hgiven, hnot⟩
  | list element =>
    rw [Given.guarded] at h
    obtain ⟨value, words, -, htyped, hgiven, hnot⟩ := exists_taken element h
    refine ⟨.array (indexed [value]), [.list [words]], nofun, fun _ => rfl, ?_, ?_⟩
    · rw [Given.given, if_pos (isList_indexed [value])]
      simp [indexed, htyped rfl, hgiven]
    · intro hare
      generalize harray : PhpValue.array (indexed [value]) = one at hare
      cases hare with
      | list hall =>
        rw [← indexed_inj (PhpValue.array.inj harray)] at hall
        cases hall with
        | cons hfirst _ => exact hnot hfirst
  | function slot => cases h

/-- What a type hands over is a value's words or nothing, exactly where the type is guarded. -/
theorem handedOver_iff (g : Given) :
    (∀ value words, g.handedOver php value = some words → Are php g value words) ↔
      g.guarded false = true := by
  constructor
  · intro h
    by_contra hnot
    obtain ⟨value, words, -, htyped, hgiven, hnone⟩ :=
      @exists_taken php g _ (Bool.eq_false_iff.mpr hnot)
    refine hnone (h value words ?_)
    rw [Given.handedOver, if_pos (htyped rfl), hgiven]
  · intro hguarded value words h
    rw [Given.handedOver] at h
    split_ifs at h with htyped
    exact are_of_guarded g hguarded (fun _ => htyped) h

theorem guarded_typed (is : Whole) : (Given.whole is).guarded false = true := by
  cases is with
  | primitive is => cases is <;> rfl
  | _ => rfl

theorem exists_call (takes : List Given) : ∃ values words, call php takes values = some words := by
  induction takes with
  | nil => exact ⟨[], [], rfl⟩
  | cons take takes ih =>
    obtain ⟨value, words, htyped, hgiven⟩ := @exists_given php take
    obtain ⟨values, rest, hrest⟩ := ih
    refine ⟨value :: values, words ++ rest, ?_⟩
    rw [call, Given.handedOver, if_pos htyped, hgiven, hrest]
    rfl

theorem are_of_call {takes : List Given} (hguarded : ∀ take ∈ takes, take.guarded false = true)
    {values : List PhpValue} {words : List Word} (h : call php takes values = some words) :
    AreEach php takes (values.take takes.length) words := by
  induction takes generalizing values words with
  | nil =>
    obtain rfl := Option.some.inj h
    exact .nil
  | cons take takes ih =>
    cases values with
    | nil => cases h
    | cons value values =>
      obtain ⟨first, hfirst, hafter⟩ := Option.bind_eq_some_iff.mp h
      obtain ⟨rest, hrest, rfl⟩ := Option.map_eq_some_iff.mp hafter
      exact .cons ((handedOver_iff take).mpr (hguarded take List.mem_cons_self) value first hfirst)
        (ih (fun other hmem => hguarded other (List.mem_cons_of_mem take hmem)) hrest)

theorem guarded_of_call {takes : List Given}
    (h : ∀ values words, call php takes values = some words →
      AreEach php takes (values.take takes.length) words) :
    ∀ take ∈ takes, take.guarded false = true := by
  induction takes with
  | nil => nofun
  | cons take takes ih =>
    have hcall : ∀ value values words rest, take.handedOver php value = some words →
        call php takes values = some rest →
          Are php take value words ∧ AreEach php takes (values.take takes.length) rest := by
      intro value values words rest hfirst hrest
      have hall := h (value :: values) (words ++ rest) (by
        rw [call, hfirst, Option.bind_some, hrest, Option.map_some])
      rw [List.length_cons, List.take_succ_cons] at hall
      generalize hboth : words ++ rest = both at hall
      cases hall with
      | cons hare heach =>
        have hlength := (length_handedOver hfirst).trans (Are.length take hare).symm
        obtain ⟨rfl, rfl⟩ := List.append_inj hboth hlength
        exact ⟨hare, heach⟩
    have hrest := ih fun values rest hrest => by
      obtain ⟨value, words, htyped, hgiven⟩ := @exists_given php take
      refine (hcall value values words rest ?_ hrest).2
      rw [Given.handedOver, if_pos htyped, hgiven]
    have hfirst := (handedOver_iff take).mp fun value words hfirst => by
      obtain ⟨values, rest, hrest⟩ := @exists_call php takes
      exact (hcall value values words rest hfirst hrest).1
    intro other hmem
    rcases List.mem_cons.mp hmem with rfl | hmem
    · exact hfirst
    · exact hrest other hmem

mutual

/-- Every place that `holds` does not ask is guarded: it asks nothing of a list's elements. -/
def Given.asked : Given → Bool
  | .list element => element.guarded false
  | .optional of => of.asked
  | .tuple members => askedEach members
  | .whole _ | .oneOf _ _ | .function _ => true

def askedEach : List Given → Bool
  | [] => true
  | member :: members => member.asked && askedEach members

end

theorem holds_optional {of : Given} {value : PhpValue} (hvalue : value ≠ .null) :
    (Given.optional of).holds php value =
      if of.nullable then (match value with | .some held => of.holds php held | _ => false)
      else of.holds php value := by
  cases value with
  | null => exact absurd rfl hvalue
  | _ => rfl

mutual

theorem are_of_holds (g : Given) {value : PhpValue} {words : List Word} (hasked : g.asked = true)
    (hholds : g.holds php value = true) (h : g.given php value = some words) :
    Are php g value words := by
  cases g with
  | whole is => exact are_of_guarded _ (guarded_typed is) (fun _ => hholds) h
  | oneOf first rest =>
    have hguarded : (Given.oneOf first rest).guarded false = true := rfl
    exact are_of_guarded _ hguarded (fun _ => hholds) h
  | optional of =>
    by_cases hvalue : value = .null
    · subst hvalue
      obtain rfl := Option.some.inj h
      exact .absent
    · rw [given_optional hvalue] at h
      rw [holds_optional hvalue] at hholds
      rw [Given.asked] at hasked
      split_ifs at h hholds with hnullable
      · cases value with
        | some held =>
          obtain ⟨words, hwords, rfl⟩ := Option.map_eq_some_iff.mp h
          exact .wrapped hnullable (are_of_holds of hasked hholds hwords)
        | _ => cases hholds
      · obtain ⟨words, hwords, rfl⟩ := Option.map_eq_some_iff.mp h
        exact .present (by simpa using hnullable) (are_of_holds of hasked hholds hwords)
  | tuple members =>
    cases value with
    | array entries =>
      rw [Given.holds, Bool.and_eq_true, Bool.and_eq_true] at hholds
      obtain ⟨⟨hlist, hcount⟩, heach⟩ := hholds
      have hentries := indexed_snd entries hlist
      have hlength : (entries.map Prod.snd).length = members.length := by
        rw [List.length_map]
        exact of_decide_eq_true hcount
      rw [← hentries] at h heach ⊢
      exact .tuple (areEach_of_holds members [] hlength hasked heach h)
    | _ => cases hholds
  | list element =>
    cases value with
    | array entries =>
      have hguarded : (Given.list element).guarded false = true := hasked
      exact are_of_guarded _ hguarded (fun _ => rfl) h
    | _ => cases hholds
  | function slot =>
    cases value with
    | closure calls =>
      have hguarded : (Given.function slot).guarded false = true := rfl
      exact are_of_guarded _ hguarded (fun _ => rfl) h
    | _ => cases hholds

theorem areEach_of_holds (members : List Given) (front : List PhpValue) {values : List PhpValue}
    {words : List Word} (hlength : values.length = members.length)
    (hasked : askedEach members = true)
    (hholds : holdsEach php members (.array (indexed (front ++ values))) front.length = true)
    (h : givenEach php members (.array (indexed (front ++ values))) front.length = some words) :
    AreEach php members values words := by
  cases members with
  | nil =>
    obtain rfl := Option.some.inj h
    rw [List.length_eq_zero_iff.mp hlength]
    exact .nil
  | cons member members =>
    cases values with
    | nil => cases hlength
    | cons value values =>
      have hfront : front ++ value :: values = (front ++ [value]) ++ values := by simp
      have hnext : front.length + 1 = (front ++ [value]).length := by simp
      rw [givenEach, at_indexed, Option.bind_some] at h
      rw [holdsEach, at_indexed, Option.any_some, Bool.and_eq_true] at hholds
      rw [askedEach, Bool.and_eq_true] at hasked
      obtain ⟨first, hfirst, hafter⟩ := Option.bind_eq_some_iff.mp h
      obtain ⟨rest, hrest, rfl⟩ := Option.map_eq_some_iff.mp hafter
      rw [hfront, hnext] at hrest
      have hheld := hholds.2
      rw [hfront, hnext] at hheld
      exact .cons (are_of_holds member hasked.1 hholds.1 hfirst)
        (areEach_of_holds members (front ++ [value]) (Nat.succ.inj hlength) hasked.2 hheld hrest)

end

/-- What an implementation answers is handed over as its words or refused, in a tuple and in a
`Some` too. -/
theorem are_of_answered {g : Given} (hasked : g.asked = true) {value : PhpValue}
    {words : List Word} (h : g.answered php value = some words) : Are php g value words := by
  rw [Given.answered] at h
  split_ifs at h with hholds
  exact are_of_holds g hasked hholds h

end Guarded

end SoutherNative.PhpCrossing
