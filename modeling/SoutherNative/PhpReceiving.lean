import Mathlib
import SoutherNative.PhpGuarding

set_option autoImplicit false

/-!
# What comes back

A value of a type is handed over as its words, and what is made of words the library hands over is a
value of the type, whose words they are.
-/
namespace SoutherNative.PhpCrossing

section Given

variable {php : Php}

theorem given_isWord {is : Whole} {value : PhpValue} {word : Word} (h : IsWord php is value word) :
    value ≠ .null ∧ is.holds php value = true ∧ is.given php value = some word := by
  cases h with
  | int n => exact ⟨by simp, rfl, rfl⟩
  | bool is => exact ⟨by simp, rfl, by cases is <;> rfl⟩
  | string htext =>
    refine ⟨by simp, rfl, ?_⟩
    rw [Whole.given, Primitive.given, htext]
    rfl
  | @numbers is parts hint hbool hstring =>
    refine ⟨by simp, ?_, ?_⟩ <;> cases is <;>
      simp_all [Whole.holds, Whole.given, Primitive.holds, Primitive.given]
  | product pointer his => exact ⟨by simp, his, rfl⟩
  | sum pointer his => exact ⟨by simp, his, rfl⟩

theorem holds_unique {is other : Primitive} {value : PhpValue} (h : is.holds value = true)
    (hother : other.holds value = true) : other = is := by
  cases is <;> cases other <;> cases value <;> simp_all [Primitive.holds]

theorem given_oneOf {first : Whole} {rest : List Whole} {value : PhpValue} {words : List Word}
    (h : Are php (.oneOf first rest) value words) :
    value ≠ .null ∧ (Given.oneOf first rest).typed php value = true ∧
      (Given.oneOf first rest).given php value = some words := by
  cases h with
  | @carried _ _ is _ word hmem hword =>
    obtain ⟨hvalue, hholds, hgiven⟩ := given_isWord hword
    refine ⟨hvalue, List.any_eq_true.mpr ⟨_, hmem, hholds⟩, ?_⟩
    rw [Given.given, oneOfGiven]
    cases hfind : (first :: rest).find? fun member =>
        member.carried.isSome && member.holds php value with
    | none =>
      have hnot := List.find?_eq_none.mp hfind _ hmem
      rw [hholds] at hnot
      exact absurd rfl hnot
    | some member =>
      have hboth := List.find?_some hfind
      rw [Bool.and_eq_true] at hboth
      cases member with
      | primitive other =>
        obtain rfl : other = is := holds_unique hholds hboth.2
        dsimp only
        rw [hgiven]
        rfl
      | product fqcn => cases hboth.1
      | sum iface codec => cases hboth.1
  | @declared _ member _ _ word hmem hnone hword =>
    obtain ⟨hvalue, hholds, hgiven⟩ := given_isWord hword
    refine ⟨hvalue, List.any_eq_true.mpr ⟨_, hmem, hholds⟩, ?_⟩
    have hany : ((first :: rest).any fun member => member.carried.isNone) = true :=
      List.any_eq_true.mpr ⟨member, hmem, by rw [hnone]; rfl⟩
    cases hword with
    | product pointer his => rw [Given.given, oneOf_handle hany]; rfl
    | sum pointer his => rw [Given.given, oneOf_handle hany]; rfl
    | _ => cases hnone

mutual

/-- A value of a type is taken where the type is, and handed over as its words. -/
theorem Are.given (g : Given) {value : PhpValue} {words : List Word} (h : Are php g value words) :
    (g.nullable = false → value ≠ .null) ∧ g.typed php value = true ∧
      g.given php value = some words := by
  cases g with
  | whole is =>
    cases h with
    | whole hword =>
      obtain ⟨hvalue, hholds, hgiven⟩ := given_isWord hword
      exact ⟨fun _ => hvalue, hholds, by rw [Given.given, hgiven]; rfl⟩
  | oneOf first rest =>
    obtain ⟨hvalue, htyped, hgiven⟩ := given_oneOf h
    exact ⟨fun _ => hvalue, htyped, hgiven⟩
  | optional of =>
    refine ⟨nofun, ?_⟩
    cases h with
    | absent => exact ⟨rfl, rfl⟩
    | @wrapped _ held words hnullable hheld =>
      obtain ⟨-, -, hgiven⟩ := Are.given of hheld
      have hsome : PhpValue.some held ≠ .null := nofun
      constructor
      · rw [typed_optional hsome, if_pos hnullable]
      · rw [given_optional hsome, if_pos hnullable, Php.held, Option.bind_some, hgiven]
        rfl
    | present hnullable hvalue =>
      obtain ⟨hnull, htyped, hgiven⟩ := Are.given of hvalue
      have hnot : ¬of.nullable = true := by simp [hnullable]
      constructor
      · rw [typed_optional (hnull hnullable), if_neg hnot, htyped]
      · rw [given_optional (hnull hnullable), if_neg hnot, Option.bind_some, hgiven]
        rfl
  | tuple members =>
    cases h with
    | @tuple _ values _ heach =>
      have hgiven := AreEach.given members heach []
      exact ⟨fun _ => nofun, rfl, hgiven⟩
  | list element =>
    cases h with
    | @list _ values elements hall =>
      refine ⟨fun _ => nofun, rfl, ?_⟩
      rw [Given.given, if_pos (isList_indexed values), indexed, List.mapM_map]
      have hfrom : ∀ start : ℕ, ((values.zipIdx start).mapM fun value : PhpValue × ℕ =>
          if element.typed php value.1 then element.given php value.1 else none) =
            some elements := by
        induction values generalizing elements with
        | nil =>
          intro start
          cases hall
          rfl
        | cons value values ih =>
          intro start
          cases hall with
          | cons hfirst hrest =>
            obtain ⟨-, htyped, hgiven⟩ := Are.given element hfirst
            rw [List.zipIdx_cons, List.mapM_cons, if_pos htyped, hgiven]
            simp only [Option.bind_eq_bind, Option.bind_some, ih hrest (start + 1)]
            rfl
      have hzero := hfrom 0
      simp only [Function.comp_def] at hzero ⊢
      rw [hzero]
      rfl
  | function slot =>
    cases h
    exact ⟨fun _ => nofun, rfl, rfl⟩

theorem AreEach.given (members : List Given) {values : List PhpValue} {words : List Word}
    (h : AreEach php members values words) (front : List PhpValue) :
    givenEach php members (.array (indexed (front ++ values))) front.length = some words := by
  cases members with
  | nil =>
    cases h
    rfl
  | cons member members =>
    cases h with
    | @cons _ _ value values words rest hfirst hrest =>
      obtain ⟨-, -, hgiven⟩ := Are.given member hfirst
      have hafter := AreEach.given members hrest (front ++ [value])
      rw [List.length_append, List.length_singleton, List.append_assoc,
        List.singleton_append] at hafter
      rw [givenEach, at_indexed, Option.bind_some, hgiven, Option.bind_some, hafter]
      rfl

end

end Given

/-- A value the library hands PHP. A value of a union no declaration names is the member that the
library says it is of. -/
inductive Received
  | whole (is : Whole)
  | told (which : Word → Option Whole) (first : Whole) (rest : List Whole)
  | optional (of : Received)
  | tuple (members : List Received)
  | list (element : Received)
  | function (slot : String)

mutual

def Received.given : Received → Given
  | .whole is => .whole is
  | .told _ first rest => .oneOf first rest
  | .optional of => .optional of.given
  | .tuple members => .tuple (givenOfEach members)
  | .list element => .list element.given
  | .function slot => .function slot

def givenOfEach : List Received → List Given
  | [] => []
  | member :: members => member.given :: givenOfEach members

end

def Received.nullable : Received → Bool
  | .optional _ => true
  | _ => false

def Received.phpType : Received → PhpType
  | .whole is => ⟨0, [is.phpType]⟩
  | .told _ first rest => ⟨0, (first :: rest).map Whole.phpType⟩
  | .optional of =>
    if of.nullable then ⟨1, [SOME]⟩ else ⟨of.phpType.marks + 1, of.phpType.names⟩
  | .tuple _ | .list _ => ⟨0, ["array"]⟩
  | .function _ => ⟨0, ["\\Closure"]⟩

section Received

variable (decides : String → Word → String)

def Whole.ofUnion : Whole → Word → Option PhpValue
  | .primitive is, .carried carried holds =>
    if is = carried then (Whole.primitive is).of decides holds else none
  | .primitive _, _ => none
  | is, word => is.of decides word

mutual

def Received.of : Received → List Word → Option PhpValue
  | .whole is, [word] => is.of decides word
  | .told which _ _, [word] => (which word).bind fun member => member.ofUnion decides word
  | .optional of, .number is :: words =>
    if is ≠ 0 then
      (of.of words).map fun made => if of.nullable then .some made else made
    else some .null
  | .tuple members, words => (ofEach members words).map fun made => .array (indexed made)
  | .list element, [.list elements] =>
    (elements.mapM element.of).map fun made => .array (indexed made)
  | .function _, [.function calls] => some (.closure calls)
  | _, _ => none

def ofEach : List Received → List Word → Option (List PhpValue)
  | [], _ => some []
  | member :: members, words =>
    (member.of (words.take member.given.width)).bind fun made =>
      (ofEach members (words.drop member.given.width)).map fun rest => made :: rest

end

variable (php : Php)

inductive Handed : Whole → Word → Prop
  | int (n : ℤ) : Handed (.primitive .INT) (.number n)
  | bool (is : Bool) : Handed (.primitive .BOOL) (.number (if is then 1 else 0))
  | string {text : Bytes} : php.admits text = some text → Handed (.primitive .STRING) (.text text)
  | numbers {is : Primitive} (parts : List ℤ) : is ≠ .INT → is ≠ .BOOL → is ≠ .STRING →
    Handed (.primitive is) (.numbers is parts)
  | product (fqcn : String) (pointer : ℕ) : Handed (.product fqcn) (.value pointer)
  | sum {iface codec : String} {pointer : ℕ} :
    php.instanceOf (decides codec (.value pointer)) iface = true →
    Handed (.sum iface codec) (.value pointer)

mutual

inductive Hands : Received → List Word → Prop
  | whole {is : Whole} {word : Word} : Handed decides php is word → Hands (.whole is) [word]
  | carried {which : Word → Option Whole} {first : Whole} {rest : List Whole} {is : Primitive}
    {word : Word} : .primitive is ∈ first :: rest →
    which (.carried is word) = some (.primitive is) → Handed decides php (.primitive is) word →
    Hands (.told which first rest) [.carried is word]
  | declared {which : Word → Option Whole} {first member : Whole} {rest : List Whole}
    {word : Word} : member ∈ first :: rest → member.carried = none → which word = some member →
    Handed decides php member word → Hands (.told which first rest) [word]
  | absent {of : Received} : Hands (.optional of) (.number 0 :: of.given.absent)
  | present {of : Received} {words : List Word} : Hands of words →
    Hands (.optional of) (.number 1 :: words)
  | tuple {members : List Received} {words : List Word} : HandsEach members words →
    Hands (.tuple members) words
  | list {element : Received} {elements : List (List Word)} : HandsAll element elements →
    Hands (.list element) [.list elements]
  | function {slot : String} {calls : ℕ} : Hands (.function slot) [.function calls]

inductive HandsEach : List Received → List Word → Prop
  | nil : HandsEach [] []
  | cons {member : Received} {members : List Received} {words rest : List Word} :
    Hands member words → HandsEach members rest → HandsEach (member :: members) (words ++ rest)

inductive HandsAll : Received → List (List Word) → Prop
  | nil {element : Received} : HandsAll element []
  | cons {element : Received} {words : List Word} {rest : List (List Word)} :
    Hands element words → HandsAll element rest → HandsAll element (words :: rest)

end

end Received

section Back

variable {decides : String → Word → String} {php : Php}

theorem nullable_given (r : Received) : r.given.nullable = r.nullable := by
  cases r <;> rfl

theorem isWord_of_handed {is : Whole} {word : Word} (h : Handed decides php is word) :
    ∃ value, is.of decides word = some value ∧ IsWord php is value word := by
  cases h with
  | int n => exact ⟨_, rfl, .int n⟩
  | bool is => exact ⟨.bool is, by cases is <;> rfl, .bool is⟩
  | string htext => exact ⟨_, rfl, .string htext⟩
  | @numbers is parts hint hbool hstring =>
    refine ⟨.numbers is parts, ?_, .numbers parts hint hbool hstring⟩
    cases is <;> first | rfl | contradiction
  | product fqcn pointer => exact ⟨_, rfl, .product pointer (php.instanceOf_self fqcn)⟩
  | sum his => exact ⟨_, rfl, .sum _ his⟩

mutual

/-- What is made of the words of a value is a value of the type they are the words of. -/
theorem are_of_hands (r : Received) {words : List Word} (h : Hands decides php r words) :
    ∃ value, r.of decides words = some value ∧ Are php r.given value words := by
  cases r with
  | whole is =>
    cases h with
    | whole hword =>
      obtain ⟨value, hof, his⟩ := isWord_of_handed hword
      exact ⟨value, hof, .whole his⟩
  | told which first rest =>
    cases h with
    | carried hmem hwhich hword =>
      obtain ⟨value, hof, his⟩ := isWord_of_handed hword
      refine ⟨value, ?_, .carried hmem his⟩
      rw [Received.of, hwhich, Option.bind_some, Whole.ofUnion, if_pos rfl, hof]
    | @declared _ _ member _ word hmem hnone hwhich hword =>
      obtain ⟨value, hof, his⟩ := isWord_of_handed hword
      refine ⟨value, ?_, .declared hmem hnone his⟩
      rw [Received.of, hwhich, Option.bind_some, ← hof]
      cases member with
      | primitive is => cases hnone
      | product fqcn => rfl
      | sum iface codec => rfl
  | optional of =>
    cases h with
    | absent => exact ⟨.null, rfl, .absent⟩
    | present hheld =>
      obtain ⟨value, hof, hare⟩ := are_of_hands of hheld
      rw [Received.of, if_pos (by decide), hof, Option.map_some]
      cases hnullable : of.nullable with
      | true => exact ⟨_, rfl, .wrapped ((nullable_given of).trans hnullable) hare⟩
      | false => exact ⟨_, rfl, .present ((nullable_given of).trans hnullable) hare⟩
  | tuple members =>
    cases h with
    | tuple heach =>
      obtain ⟨values, hof, hare⟩ := areEach_of_hands members heach
      exact ⟨_, by rw [Received.of, hof]; rfl, .tuple hare⟩
  | list element =>
    cases h with
    | @list _ elements hall =>
      have hvalues : ∃ values, elements.mapM (element.of decides) = some values ∧
          AreAll php element.given values elements := by
        induction elements with
        | nil => exact ⟨[], rfl, .nil⟩
        | cons words rest ih =>
          cases hall with
          | cons hfirst hrest =>
            obtain ⟨value, hof, hare⟩ := are_of_hands element hfirst
            obtain ⟨values, hofs, hares⟩ := ih hrest
            refine ⟨value :: values, ?_, .cons hare hares⟩
            rw [List.mapM_cons, hof, hofs]
            rfl
      obtain ⟨values, hof, hare⟩ := hvalues
      exact ⟨_, by rw [Received.of, hof]; rfl, .list hare⟩
  | function slot =>
    cases h
    exact ⟨_, rfl, .function⟩

theorem areEach_of_hands (members : List Received) {words : List Word}
    (h : HandsEach decides php members words) :
    ∃ values, ofEach decides members words = some values ∧
      AreEach php (givenOfEach members) values words := by
  cases members with
  | nil =>
    cases h
    exact ⟨[], rfl, .nil⟩
  | cons member members =>
    cases h with
    | @cons _ _ words rest hfirst hrest =>
      obtain ⟨value, hof, hare⟩ := are_of_hands member hfirst
      obtain ⟨values, hofs, hares⟩ := areEach_of_hands members hrest
      have hwidth := Are.length member.given hare
      refine ⟨value :: values, ?_, .cons hare hares⟩
      rw [ofEach, ← hwidth, List.take_left, List.drop_left, hof, Option.bind_some, hofs]
      rfl

end

def Given.marksUnion : Given → Bool
  | .optional (.oneOf _ (_ :: _)) => true
  | _ => false

theorem taken_iff (g : Given) : g.phpType.Taken ↔ g.marksUnion = false := by
  cases g with
  | optional of =>
    cases of with
    | oneOf first rest =>
      cases rest <;> simp [Given.phpType, PhpType.Taken, Given.marksUnion, Given.nullable]
    | _ => simp [Given.phpType, PhpType.Taken, Given.marksUnion, Given.nullable]
  | _ => simp [Given.phpType, PhpType.Taken, Given.marksUnion]

theorem phpType_given (r : Received) : r.phpType = r.given.phpType := by
  cases r with
  | optional of =>
    rw [Received.phpType, Received.given, Given.phpType, nullable_given, phpType_given of]
  | _ => rfl

theorem Are.absent_iff {of : Given} {value : PhpValue} {words : List Word}
    (h : Are php (.optional of) value words) :
    value = .null ↔ words.head? = some (.number 0) := by
  cases h with
  | absent => exact ⟨fun _ => rfl, fun _ => rfl⟩
  | wrapped _ _ => exact ⟨nofun, nofun⟩
  | present hnullable hvalue =>
    exact ⟨fun hnull => absurd hnull ((Are.given of hvalue).1 hnullable), nofun⟩

/-- What a function is called with crosses as itself or is refused exactly where no place of what
it takes is one where PHP checks nothing: there is no tuple in it, and no `Some` of a number, of a
truth value, of a value of a declared type, or of another optional's `Some`. As many words are
handed over as the types say; a value of a type always crosses as its words, an optional's telling
each depth of absence; what the library hands over comes back as it was; and a type is spelt as PHP
takes it exactly where it is no optional of a union of more than one. -/
theorem crosses_iff (php : Php) :
    (∀ takes : List Given,
      (∀ values words, call php takes values = some words →
        AreEach php takes (values.take takes.length) words) ↔
      ∀ take ∈ takes, take.guarded false = true) ∧
    (∀ takes values words, call php takes values = some words →
      words.length = widthEach takes) ∧
    (∀ (g : Given) value words, Are php g value words → g.handedOver php value = some words) ∧
    (∀ (of : Given) value words, Are php (.optional of) value words →
      (value = .null ↔ words.head? = some (.number 0))) ∧
    (∀ (decides : String → Word → String) (r : Received) words, Hands decides php r words →
      ∃ value, r.of decides words = some value ∧ r.given.handedOver php value = some words) ∧
    (∀ g : Given, g.phpType.Taken ↔ g.marksUnion = false) ∧
    ∀ r : Received, r.phpType.Taken ↔ r.given.marksUnion = false := by
  have hback : ∀ (g : Given) value words, Are php g value words →
      g.handedOver php value = some words := by
    intro g value words h
    obtain ⟨-, htyped, hgiven⟩ := Are.given g h
    rw [Given.handedOver, if_pos htyped, hgiven]
  refine ⟨?_, fun _ _ _ => length_call, hback, fun _ _ _ => Are.absent_iff, ?_, taken_iff, ?_⟩
  · intro takes
    exact ⟨guarded_of_call, fun hguarded values words => are_of_call hguarded⟩
  · intro decides r words h
    obtain ⟨value, hof, hare⟩ := are_of_hands r h
    exact ⟨value, hof, hback _ _ _ hare⟩
  · intro r
    rw [phpType_given]
    exact taken_iff r.given

end Back

def apart : Php where
  cast := fun _ => some 0
  truthy := fun _ => true
  offset := fun _ _ => some .null
  property := fun _ => some .null
  instanceOf := fun name other => name == other
  instanceOf_self := fun name => beq_self_eq_true name
  foreign := fun names => by
    obtain ⟨name, hname⟩ := Infinite.exists_notMem_finset names.toFinset
    refine ⟨name, fun other hother => beq_eq_false_iff_ne.mpr ?_⟩
    rintro rfl
    exact hname (List.mem_toFinset.mpr hother)
  admits := some
  admits_empty := rfl

/-- A function of a number and a truth value as a tuple is called with `[true, 2]`, and a mark
stands before a union. -/
theorem tuple_takes_others :
    call apart [.tuple [.whole (.primitive .INT), .whole (.primitive .BOOL)]]
        [.array [(.int 0, .bool true), (.int 1, .int 2)]] = some [.number 1, .number 1] ∧
      (¬∀ values words,
        call apart [.tuple [.whole (.primitive .INT), .whole (.primitive .BOOL)]] values =
            some words →
          AreEach apart [.tuple [.whole (.primitive .INT), .whole (.primitive .BOOL)]]
            (values.take 1) words) ∧
      ¬(Given.optional (.oneOf (.product "\\A") [.product "\\B"])).phpType.Taken := by
  refine ⟨rfl, fun h => ?_, fun h => ?_⟩
  · cases guarded_of_call h _ List.mem_cons_self
  · cases (taken_iff _).mp h

/-- A function of a list of optionals of optional texts is called with what that is. -/
theorem texts_cross : ∀ values words,
    call apart [.list (.optional (.optional (.whole (.primitive .STRING))))] values = some words →
      AreEach apart [.list (.optional (.optional (.whole (.primitive .STRING))))] (values.take 1)
        words := by
  apply ((crosses_iff apart).1 [.list (.optional (.optional (.whole (.primitive .STRING))))]).mpr
  intro take hmem
  obtain rfl := List.mem_singleton.mp hmem
  rfl

end SoutherNative.PhpCrossing
