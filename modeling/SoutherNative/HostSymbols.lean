import Mathlib
import SoutherNative.PrefixCode

set_option autoImplicit false

/-!
# What a host calls a thing by

The C identifiers a host reaches everything by. A name is spelt so that inside it `_` is only ever
followed by `_` or `u`, and every mark between names is `_` and a letter that is neither, so each
identifier reads back as the one thing it was made of.
-/
namespace SoutherNative.HostSymbols

abbrev Spelling := List Char

def ABI_GENERATION : ℕ := 13

/-- `format!("{n}")`. -/
def decimal (n : ℕ) : Spelling := Nat.toDigits 10 n

/-- `format!("{n:x}")`. -/
def hex (n : ℕ) : Spelling := Nat.toDigits 16 n

def isAsciiAlphanumeric (c : Char) : Bool := c.isAlphanum

def hostChar (c : Char) : Spelling :=
  if isAsciiAlphanumeric c then [c]
  else if c = '_' then ['_', '_']
  else ['_', 'u'] ++ hex c.toNat ++ ['_']

def hostName (name : Spelling) : Spelling := name.flatMap hostChar

@[irreducible] def hostStart : Spelling := "souther".toList ++ decimal ABI_GENERATION

def hostModule (module : Spelling) : Spelling :=
  hostStart ++ (module.splitOn '.').flatMap (fun segment => "_m_".toList ++ hostName segment)

def hostUnder (module : Spelling) (mark : Char) (name : Spelling) : Spelling :=
  hostModule module ++ ['_', mark, '_'] ++ hostName name

def hostBehaviorSymbol (module behavior : Spelling) : Spelling := hostUnder module 'b' behavior

def hostBindSymbol (module behavior : Spelling) : Spelling :=
  hostUnder module 'b' behavior ++ "_bind".toList

def hostImplementSymbol (module behavior : Spelling) : Spelling :=
  hostUnder module 'b' behavior ++ "_implement".toList

def hostExampleSymbol (module behavior : Spelling) (place : ℕ) : Spelling :=
  hostUnder module 'b' behavior ++ "_example_".toList ++ decimal place

def hostOwedSymbol (module behavior : Spelling) (place : ℕ) : Spelling :=
  hostUnder module 'b' behavior ++ "_owed_".toList ++ decimal place

def hostBehaviorAnswerCaseSymbol (module behavior : Spelling) : Spelling :=
  hostUnder module 'b' behavior ++ "_answer_case".toList

def hostImplementationType (module behavior : Spelling) : Spelling :=
  hostUnder module 'b' behavior ++ "_implementation".toList

def hostValueSymbol (module value : Spelling) : Spelling := hostUnder module 'v' value

def hostConstructorSymbol (module name : Spelling) : Spelling :=
  hostUnder module 't' name ++ "_construct".toList

def hostFieldSymbol (module name field : Spelling) : Spelling :=
  hostUnder module 't' name ++ "_f_".toList ++ hostName field

def hostCaseSymbol (module name : Spelling) : Spelling :=
  hostUnder module 't' name ++ "_case".toList

def hostDecodeSymbol (module name : Spelling) : Spelling :=
  hostUnder module 't' name ++ "_decode".toList

def hostDecodeHostValueSymbol (module name : Spelling) : Spelling :=
  hostUnder module 't' name ++ "_decode_host".toList

def hostEncodeSymbol (module name : Spelling) : Spelling :=
  hostUnder module 't' name ++ "_encode".toList

inductive HostLeaf
  | int | bool | string | decimal | date | time | dateTime | instant | value
  deriving DecidableEq

def HostLeaf.spelt : HostLeaf → Spelling
  | .int => "int".toList
  | .bool => "bool".toList
  | .string => "string".toList
  | .decimal => "decimal".toList
  | .date => "date".toList
  | .time => "time".toList
  | .dateTime => "datetime".toList
  | .instant => "instant".toList
  | .value => "value".toList

inductive HostShape
  | leaf (leaf : HostLeaf)
  | option (present : HostShape)
  | product (members : List HostShape)
  | list (element : HostShape)
  | function (takes : List HostShape) (answers : HostShape)

mutual

/-- The shape as a symbol spells it: a mark, and then what it is made of, each after a `_`. -/
def HostShape.spelt : HostShape → Spelling
  | .leaf leaf => leaf.spelt
  | .option present => 'o' :: '_' :: present.spelt
  | .product members => 't' :: (decimal members.length ++ speltEach members)
  | .list element => 'l' :: '_' :: element.spelt
  | .function takes answers =>
    'f' :: (decimal takes.length ++ speltEach takes ++ '_' :: answers.spelt)

def speltEach : List HostShape → Spelling
  | [] => []
  | shape :: shapes => '_' :: (shape.spelt ++ speltEach shapes)

end

inductive HostListOperation
  | construct | length | place
  deriving DecidableEq

def HostListOperation.spelt : HostListOperation → Spelling
  | .construct => "_construct".toList
  | .length => "_length".toList
  | .place => "_at".toList

def hostListSymbol (module : Spelling) (element : HostShape) (operation : HostListOperation) :
    Spelling :=
  hostModule module ++ "_l_".toList ++ element.spelt ++ operation.spelt

inductive HostFunctionOperation
  | call | implement | implementation
  deriving DecidableEq

def HostFunctionOperation.spelt : HostFunctionOperation → Spelling
  | .call => "_call".toList
  | .implement => "_implement".toList
  | .implementation => "_implementation".toList

def hostFunctionSymbol (module : Spelling) (function : HostShape) (operation : HostFunctionOperation) :
    Option Spelling :=
  match function with
  | .function _ _ => some (hostModule module ++ "_fn_".toList ++ function.spelt ++ operation.spelt)
  | _ => none

inductive OfBehavior
  | call | bind | implement | implementation | answerCase
  | exampleRow (place : ℕ)
  | owed (place : ℕ)
  deriving DecidableEq

inductive OfType
  | construct | case | decode | decodeHost | encode
  | field (field : Spelling)
  deriving DecidableEq

inductive Thing
  | behavior (name : Spelling) (reached : OfBehavior)
  | value (name : Spelling)
  | type (name : Spelling) (reached : OfType)
  | list (element : HostShape) (operation : HostListOperation)
  | function (takes : List HostShape) (answers : HostShape) (operation : HostFunctionOperation)

def Thing.symbol (module : Spelling) : Thing → Option Spelling
  | .behavior name .call => some (hostBehaviorSymbol module name)
  | .behavior name .bind => some (hostBindSymbol module name)
  | .behavior name .implement => some (hostImplementSymbol module name)
  | .behavior name .implementation => some (hostImplementationType module name)
  | .behavior name .answerCase => some (hostBehaviorAnswerCaseSymbol module name)
  | .behavior name (.exampleRow place) => some (hostExampleSymbol module name place)
  | .behavior name (.owed place) => some (hostOwedSymbol module name place)
  | .value name => some (hostValueSymbol module name)
  | .type name .construct => some (hostConstructorSymbol module name)
  | .type name .case => some (hostCaseSymbol module name)
  | .type name .decode => some (hostDecodeSymbol module name)
  | .type name .decodeHost => some (hostDecodeHostValueSymbol module name)
  | .type name .encode => some (hostEncodeSymbol module name)
  | .type name (.field field) => some (hostFieldSymbol module name field)
  | .list element operation => some (hostListSymbol module element operation)
  | .function takes answers operation =>
    hostFunctionSymbol module (.function takes answers) operation

/-- Nothing, or a mark: `_` and a letter that no name follows a `_` with. -/
def Ends (rest : Spelling) : Prop :=
  rest = [] ∨ ∃ c rest', rest = '_' :: c :: rest' ∧ c ≠ '_' ∧ c ≠ 'u'

theorem ends_nil : Ends [] := .inl rfl

theorem ends_mark {c : Char} (rest : Spelling) (h : c ≠ '_' ∧ c ≠ 'u') : Ends ('_' :: c :: rest) :=
  .inr ⟨c, rest, rfl, h⟩

/-- A run none of whose characters is the one it stops before reads back. -/
theorem run_append {stop : Char} {as bs xs ys : Spelling} (ha : stop ∉ as) (hb : stop ∉ bs)
    (h : as ++ stop :: xs = bs ++ stop :: ys) : as = bs ∧ xs = ys := by
  induction as generalizing bs with
  | nil =>
    cases bs with
    | nil => exact ⟨rfl, List.tail_eq_of_cons_eq h⟩
    | cons b bs =>
      rw [List.nil_append, List.cons_append, List.cons.injEq] at h
      exact absurd (h.1 ▸ List.mem_cons_self) hb
  | cons a as ih =>
    cases bs with
    | nil =>
      rw [List.nil_append, List.cons_append, List.cons.injEq] at h
      exact absurd (h.1 ▸ List.mem_cons_self) ha
    | cons b bs =>
      rw [List.cons_append, List.cons_append, List.cons.injEq] at h
      obtain ⟨rfl, hrest⟩ := ih (fun hmem => ha (List.mem_cons_of_mem _ hmem))
        (fun hmem => hb (List.mem_cons_of_mem _ hmem)) h.2
      exact ⟨by rw [h.1], hrest⟩

theorem digitChar_inj {n m : ℕ} (hn : n < 16) (hm : m < 16) (h : n.digitChar = m.digitChar) :
    n = m := by
  have hall : ∀ n < 16, ∀ m < 16, n.digitChar = m.digitChar → n = m := by decide
  exact hall n hn m hm h

theorem digitChar_alphanum {n : ℕ} (hn : n < 16) : n.digitChar.isAlphanum = true := by
  have hall : ∀ n < 16, n.digitChar.isAlphanum = true := by decide
  exact hall n hn

theorem alphanum_of_mem_toDigits {b n : ℕ} (hb : 1 < b) (hb' : b ≤ 16) {c : Char}
    (h : c ∈ Nat.toDigits b n) : c.isAlphanum = true := by
  induction n using Nat.strong_induction_on with
  | _ n ih =>
    rw [Nat.toDigits_eq_if hb] at h
    split_ifs at h with hlt
    · rw [List.mem_singleton] at h
      rw [h]
      exact digitChar_alphanum (by omega)
    · rcases List.mem_append.mp h with h | h
      · exact ih _ (Nat.div_lt_self (by omega) hb) h
      · rw [List.mem_singleton] at h
        have := Nat.mod_lt n (show 0 < b by omega)
        rw [h]
        exact digitChar_alphanum (by omega)

theorem toDigits_injective {b : ℕ} (hb : 1 < b) (hb' : b ≤ 16) : Function.Injective (Nat.toDigits b) := by
  intro n m h
  induction n using Nat.strong_induction_on generalizing m with
  | _ n ih =>
    have hn := Nat.mod_lt n (show 0 < b by omega)
    have hm := Nat.mod_lt m (show 0 < b by omega)
    rw [Nat.toDigits_eq_if hb, Nat.toDigits_eq_if (n := m) hb] at h
    split_ifs at h with hlt hlt' hlt'
    · rw [List.cons.injEq] at h
      exact digitChar_inj (by omega) (by omega) h.1
    · have := congrArg List.length h
      have hpos := @Nat.length_toDigits_pos b (m / b)
      simp only [List.length_singleton, List.length_append] at this
      omega
    · have := congrArg List.length h
      have hpos := @Nat.length_toDigits_pos b (n / b)
      simp only [List.length_singleton, List.length_append] at this
      omega
    · obtain ⟨hdiv, hmod⟩ := List.append_inj' h rfl
      have hdiv := ih _ (Nat.div_lt_self (by omega) hb) hdiv
      have hmod := digitChar_inj (by omega) (by omega) (List.cons.inj hmod).1
      rw [← Nat.div_add_mod n b, ← Nat.div_add_mod m b, hdiv, hmod]

theorem underscore_not_alphanum {c : Char} (h : c.isAlphanum = true) : c ≠ '_' := by
  rintro rfl
  cases h

theorem underscore_not_mem_hex (n : ℕ) : '_' ∉ hex n := fun h =>
  underscore_not_alphanum (alphanum_of_mem_toDigits (by decide) (by decide) h) rfl

theorem underscore_not_mem_decimal (n : ℕ) : '_' ∉ decimal n := fun h =>
  underscore_not_alphanum (alphanum_of_mem_toDigits (by decide) (by decide) h) rfl

theorem decimal_injective : Function.Injective decimal := toDigits_injective (by decide) (by decide)

theorem hostChar_cases (c : Char) :
    (hostChar c = [c] ∧ c ≠ '_') ∨ (hostChar c = ['_', '_'] ∧ c = '_') ∨
      hostChar c = '_' :: 'u' :: (hex c.toNat ++ ['_']) := by
  simp only [hostChar]
  split_ifs with halnum hunder
  · exact .inl ⟨rfl, underscore_not_alphanum halnum⟩
  · exact .inr (.inl ⟨rfl, hunder⟩)
  · exact .inr (.inr rfl)

theorem hostChar_append {c d : Char} {xs ys : Spelling} (h : hostChar c ++ xs = hostChar d ++ ys) :
    c = d ∧ xs = ys := by
  rcases hostChar_cases c with ⟨hc, hne⟩ | ⟨hc, rfl⟩ | hc
  · rcases hostChar_cases d with ⟨hd, -⟩ | ⟨hd, -⟩ | hd
    · rw [hc, hd] at h
      exact List.cons.inj h
    · rw [hc, hd] at h
      exact absurd (List.cons.inj h).1 hne
    · rw [hc, hd] at h
      exact absurd (List.cons.inj h).1 hne
  · rcases hostChar_cases d with ⟨hd, hne'⟩ | ⟨hd, rfl⟩ | hd
    · rw [hc, hd] at h
      exact absurd (List.cons.inj h).1.symm hne'
    · rw [hc] at h
      exact ⟨rfl, (List.cons.inj (List.cons.inj h).2).2⟩
    · rw [hc, hd] at h
      exact absurd (List.cons.inj (List.cons.inj h).2).1 (by decide)
  · rcases hostChar_cases d with ⟨hd, hne'⟩ | ⟨hd, rfl⟩ | hd
    · rw [hc, hd] at h
      exact absurd (List.cons.inj h).1.symm hne'
    · rw [hc, hd] at h
      exact absurd (List.cons.inj (List.cons.inj h).2).1 (by decide)
    · rw [hc, hd] at h
      rw [List.cons_append, List.cons_append, List.cons_append, List.cons_append, List.cons.injEq,
        List.cons.injEq, List.append_assoc, List.append_assoc] at h
      have hrest := h.2.2
      obtain ⟨hhex, hxs⟩ := run_append (underscore_not_mem_hex _) (underscore_not_mem_hex _) hrest
      exact ⟨Char.toNat_inj.mp (toDigits_injective (by decide) (by decide) hhex), hxs⟩

theorem hostChar_not_ends {c : Char} {xs rest : Spelling} (hends : Ends rest) :
    hostChar c ++ xs ≠ rest := by
  rintro rfl
  rcases hostChar_cases c with ⟨hc, hne⟩ | ⟨hc, -⟩ | hc
  · rw [hc] at hends
    rcases hends with hnil | ⟨d, rest, hcons, -⟩
    · cases hnil
    · exact hne (List.cons.inj hcons).1
  · rw [hc] at hends
    rcases hends with hnil | ⟨d, rest, hcons, hd, -⟩
    · cases hnil
    · exact hd (List.cons.inj (List.cons.inj hcons).2).1.symm
  · rw [hc] at hends
    rcases hends with hnil | ⟨d, rest, hcons, -, hd⟩
    · cases hnil
    · exact hd (List.cons.inj (List.cons.inj hcons).2).1.symm

def hostCode : PrefixCode Char Char where
  word := hostChar
  reads := hostChar_append

theorem Ends.stops {rest : Spelling} (h : Ends rest) : hostCode.Stops rest :=
  fun _ _ => hostChar_not_ends h

theorem hostName_append {name other xs ys : Spelling} (hx : Ends xs) (hy : Ends ys)
    (h : hostName name ++ xs = hostName other ++ ys) : name = other ∧ xs = ys :=
  @PrefixCode.spell_append _ _ hostCode _ _ _ _ hx.stops hy.stops h

/-- What follows a module: `_` and a letter that is no segment's mark. -/
def Under (rest : Spelling) : Prop := ∃ c rest', rest = '_' :: c :: rest' ∧ c ≠ '_' ∧ c ≠ 'u' ∧ c ≠ 'm'

theorem Under.ends {rest : Spelling} (h : Under rest) : Ends rest := by
  obtain ⟨c, rest', rfl, hc, hu, -⟩ := h
  exact ends_mark rest' ⟨hc, hu⟩

def segmentsSpelt (segments : List Spelling) : Spelling :=
  segments.flatMap (fun segment => "_m_".toList ++ hostName segment)

theorem ends_segments (segments : List Spelling) {rest : Spelling} (h : Ends rest) :
    Ends (segmentsSpelt segments ++ rest) := by
  cases segments with
  | nil => exact h
  | cons segment segments => exact ends_mark _ (by decide)

theorem segments_append {segments others : List Spelling} {xs ys : Spelling} (hx : Under xs)
    (hy : Under ys) (h : segmentsSpelt segments ++ xs = segmentsSpelt others ++ ys) :
    segments = others ∧ xs = ys := by
  have hmark : ∀ (segment : Spelling) (segments : List Spelling) (zs : Spelling),
      segmentsSpelt (segment :: segments) ++ zs =
        '_' :: 'm' :: '_' :: (hostName segment ++ (segmentsSpelt segments ++ zs)) := by
    intro segment segments zs
    rw [segmentsSpelt, List.flatMap_cons, List.append_assoc, List.append_assoc]
    rfl
  induction segments generalizing others with
  | nil =>
    cases others with
    | nil => exact ⟨rfl, h⟩
    | cons other others =>
      obtain ⟨c, rest, rfl, -, -, hm⟩ := hx
      rw [hmark] at h
      exact absurd (List.cons.inj (List.cons.inj h).2).1 hm
  | cons segment segments ih =>
    cases others with
    | nil =>
      obtain ⟨c, rest, rfl, -, -, hm⟩ := hy
      rw [hmark] at h
      exact absurd (List.cons.inj (List.cons.inj h).2).1.symm hm
    | cons other others =>
      rw [hmark, hmark, List.cons.injEq, List.cons.injEq, List.cons.injEq] at h
      obtain ⟨rfl, hrest⟩ := hostName_append (ends_segments segments hx.ends)
        (ends_segments others hy.ends) h.2.2.2
      obtain ⟨rfl, hxs⟩ := ih hrest
      exact ⟨rfl, hxs⟩

theorem splitOn_injective {stop : Char} {name other : Spelling}
    (h : name.splitOn stop = other.splitOn stop) : name = other := by
  have hjoin : ∀ name : Spelling, [stop].intercalate (name.splitOn stop) = name :=
    fun _ => List.intercalate_splitOn stop
  rw [← hjoin name, h, hjoin]

theorem hostModule_eq (module rest : Spelling) :
    hostModule module ++ rest = hostStart ++ (segmentsSpelt (module.splitOn '.') ++ rest) :=
  List.append_assoc _ _ _

/-- A module reads back, whatever is reached under it. -/
theorem hostModule_append {module other xs ys : Spelling} (hx : Under xs) (hy : Under ys)
    (h : hostModule module ++ xs = hostModule other ++ ys) : module = other ∧ xs = ys := by
  rw [hostModule_eq, hostModule_eq, List.append_right_inj] at h
  obtain ⟨hsegments, hxs⟩ := segments_append hx hy h
  exact ⟨splitOn_injective hsegments, hxs⟩

def HostShape.mark : HostShape → Spelling
  | .leaf it => it.spelt
  | .option _ => ['o']
  | .product members => 't' :: decimal members.length
  | .list _ => ['l']
  | .function takes _ => 'f' :: decimal takes.length

def HostShape.parts : HostShape → List HostShape
  | .leaf _ => []
  | .option present => [present]
  | .product members => members
  | .list element => [element]
  | .function takes answers => takes ++ [answers]

theorem speltEach_append (shapes others : List HostShape) :
    speltEach (shapes ++ others) = speltEach shapes ++ speltEach others := by
  induction shapes with
  | nil => rfl
  | cons shape shapes ih => simp [speltEach, ih]

theorem spelt_eq (shape : HostShape) : shape.spelt = shape.mark ++ speltEach shape.parts := by
  cases shape <;> simp [HostShape.spelt, HostShape.mark, HostShape.parts, speltEach, speltEach_append]

theorem leaf_spelt_cons (leaf : HostLeaf) :
    ∃ a b rest, leaf.spelt = a :: b :: rest ∧ b.isDigit = false := by
  cases leaf <;> exact ⟨_, _, _, rfl, by decide⟩

theorem leaf_ne_counted (leaf : HostLeaf) (c : Char) (n : ℕ) : leaf.spelt ≠ c :: decimal n := by
  obtain ⟨a, b, rest, hleaf, hb⟩ := leaf_spelt_cons leaf
  rw [hleaf]
  intro h
  have hmem : b ∈ decimal n := (List.cons.inj h).2 ▸ List.mem_cons_self
  have := Nat.isDigit_of_mem_toDigits (by decide) (by decide) hmem
  rw [hb] at this
  cases this

theorem leaf_ne_singleton (leaf : HostLeaf) (c : Char) : leaf.spelt ≠ [c] := by
  obtain ⟨a, b, rest, hleaf, -⟩ := leaf_spelt_cons leaf
  rw [hleaf]
  intro h
  cases (List.cons.inj h).2

theorem leaf_spelt_injective : Function.Injective HostLeaf.spelt := by
  intro leaf other h
  cases leaf <;> cases other <;> first | rfl | exact absurd h (by decide)

theorem of_mark {shape other : HostShape} (h : shape.mark = other.mark) :
    shape.parts.length = other.parts.length ∧ (shape.parts = other.parts → shape = other) := by
  cases shape with
  | leaf leaf =>
    cases other with
    | leaf other => exact ⟨rfl, fun _ => congrArg HostShape.leaf (leaf_spelt_injective h)⟩
    | option | list => exact absurd h (leaf_ne_singleton leaf _)
    | product | function => exact absurd h (leaf_ne_counted leaf _ _)
  | option present =>
    cases other with
    | leaf leaf => exact absurd h.symm (leaf_ne_singleton leaf _)
    | option other => exact ⟨rfl, fun hparts => by rw [(List.cons.inj hparts).1]⟩
    | list | product | function => exact absurd (List.cons.inj h).1 (by decide)
  | product members =>
    cases other with
    | leaf leaf => exact absurd h.symm (leaf_ne_counted leaf _ _)
    | product others =>
      exact ⟨decimal_injective (List.cons.inj h).2, fun hparts => congrArg HostShape.product hparts⟩
    | option | list | function => exact absurd (List.cons.inj h).1 (by decide)
  | list element =>
    cases other with
    | leaf leaf => exact absurd h.symm (leaf_ne_singleton leaf _)
    | list other => exact ⟨rfl, fun hparts => by rw [(List.cons.inj hparts).1]⟩
    | option | product | function => exact absurd (List.cons.inj h).1 (by decide)
  | function takes answers =>
    cases other with
    | leaf leaf => exact absurd h.symm (leaf_ne_counted leaf _ _)
    | function others answers' =>
      have hlen := decimal_injective (List.cons.inj h).2
      refine ⟨by simp [HostShape.parts, hlen], fun hparts => ?_⟩
      obtain ⟨rfl, hanswers⟩ := List.append_inj' hparts rfl
      rw [(List.cons.inj hanswers).1]
    | option | list | product => exact absurd (List.cons.inj h).1 (by decide)

theorem underscore_not_mem_mark (shape : HostShape) : '_' ∉ shape.mark := by
  cases shape with
  | leaf leaf => cases leaf <;> decide
  | option | list => exact fun h => absurd (List.mem_singleton.mp h) (by decide)
  | product members =>
    intro h
    rcases List.mem_cons.mp h with h | h
    · exact absurd h (by decide)
    · exact underscore_not_mem_decimal _ h
  | function takes answers =>
    intro h
    rcases List.mem_cons.mp h with h | h
    · exact absurd h (by decide)
    · exact underscore_not_mem_decimal _ h

/-- Nothing, or a `_`. -/
def Closed (rest : Spelling) : Prop := rest = [] ∨ ∃ rest', rest = '_' :: rest'

theorem mark_append {as bs xs ys : Spelling} (ha : '_' ∉ as) (hb : '_' ∉ bs) (hx : Closed xs)
    (hy : Closed ys) (h : as ++ xs = bs ++ ys) : as = bs ∧ xs = ys := by
  rcases hx with rfl | ⟨xs, rfl⟩
  · rcases hy with rfl | ⟨ys, rfl⟩
    · rw [List.append_nil, List.append_nil] at h
      exact ⟨h, rfl⟩
    · rw [List.append_nil] at h
      exact absurd (h ▸ List.mem_append_right _ List.mem_cons_self) ha
  · rcases hy with rfl | ⟨ys, rfl⟩
    · rw [List.append_nil] at h
      exact absurd (h ▸ List.mem_append_right _ List.mem_cons_self) hb
    · obtain ⟨rfl, rfl⟩ := run_append ha hb h
      exact ⟨rfl, rfl⟩

theorem closed_each (shapes : List HostShape) {rest : Spelling} (h : Closed rest) :
    Closed (speltEach shapes ++ rest) := by
  cases shapes with
  | nil => exact h
  | cons shape shapes => exact .inr ⟨_, rfl⟩

theorem sizeOf_parts {shape part : HostShape} (h : part ∈ shape.parts) :
    sizeOf part < sizeOf shape := by
  cases shape with
  | leaf leaf => cases h
  | option present | list element =>
    rw [List.mem_singleton.mp h]
    simp
  | product members =>
    have := List.sizeOf_lt_of_mem h
    simp only [HostShape.parts] at this
    simp only [HostShape.product.sizeOf_spec]
    omega
  | function takes answers =>
    simp only [HostShape.function.sizeOf_spec]
    rcases List.mem_append.mp h with h | h
    · have := List.sizeOf_lt_of_mem h
      omega
    · rw [List.mem_singleton.mp h]
      omega

theorem each_append {shapes others : List HostShape} {xs ys : Spelling}
    (hshape : ∀ shape ∈ shapes, ∀ (other : HostShape) (xs ys : Spelling), Closed xs → Closed ys →
      shape.spelt ++ xs = other.spelt ++ ys → shape = other ∧ xs = ys)
    (hlen : shapes.length = others.length) (hx : Closed xs) (hy : Closed ys)
    (h : speltEach shapes ++ xs = speltEach others ++ ys) : shapes = others ∧ xs = ys := by
  induction shapes generalizing others with
  | nil =>
    obtain rfl := List.length_eq_zero_iff.mp hlen.symm
    exact ⟨rfl, h⟩
  | cons shape shapes ih =>
    cases others with
    | nil => cases hlen
    | cons other others =>
      simp only [speltEach, List.cons_append, List.append_assoc, List.cons.injEq, true_and] at h
      obtain ⟨rfl, hrest⟩ := hshape shape List.mem_cons_self other _ _ (closed_each shapes hx)
        (closed_each others hy) h
      obtain ⟨rfl, hxs⟩ := ih (fun shape hmem => hshape shape (List.mem_cons_of_mem _ hmem))
        (Nat.succ.inj hlen) hrest
      exact ⟨rfl, hxs⟩

theorem spelt_append {shape other : HostShape} {xs ys : Spelling} (hx : Closed xs) (hy : Closed ys)
    (h : shape.spelt ++ xs = other.spelt ++ ys) : shape = other ∧ xs = ys := by
  induction hn : sizeOf shape using Nat.strong_induction_on generalizing shape other xs ys with
  | _ n ih =>
    rw [spelt_eq, spelt_eq, List.append_assoc, List.append_assoc] at h
    obtain ⟨hmark, hrest⟩ := mark_append (underscore_not_mem_mark _) (underscore_not_mem_mark _)
      (closed_each _ hx) (closed_each _ hy) h
    obtain ⟨hlen, hshape⟩ := of_mark hmark
    obtain ⟨hparts, hxs⟩ := each_append (fun part hpart other xs ys hx hy h =>
      ih _ (hn ▸ sizeOf_parts hpart) hx hy h rfl) hlen hx hy hrest
    exact ⟨hshape hparts, hxs⟩

theorem spelt_injective : Function.Injective HostShape.spelt := by
  intro shape other h
  have h' : shape.spelt ++ [] = other.spelt ++ [] := by rw [h]
  exact (spelt_append (.inl rfl) (.inl rfl) h').1

def OfBehavior.spelt : OfBehavior → Spelling
  | .call => []
  | .bind => ['_', 'b', 'i', 'n', 'd']
  | .implement => ['_', 'i', 'm', 'p', 'l', 'e', 'm', 'e', 'n', 't']
  | .implementation => ['_', 'i', 'm', 'p', 'l', 'e', 'm', 'e', 'n', 't', 'a', 't', 'i', 'o', 'n']
  | .answerCase => ['_', 'a', 'n', 's', 'w', 'e', 'r', '_', 'c', 'a', 's', 'e']
  | .exampleRow place => ['_', 'e', 'x', 'a', 'm', 'p', 'l', 'e', '_'] ++ decimal place
  | .owed place => ['_', 'o', 'w', 'e', 'd', '_'] ++ decimal place

def OfType.spelt : OfType → Spelling
  | .construct => ['_', 'c', 'o', 'n', 's', 't', 'r', 'u', 'c', 't']
  | .case => ['_', 'c', 'a', 's', 'e']
  | .decode => ['_', 'd', 'e', 'c', 'o', 'd', 'e']
  | .decodeHost => ['_', 'd', 'e', 'c', 'o', 'd', 'e', '_', 'h', 'o', 's', 't']
  | .encode => ['_', 'e', 'n', 'c', 'o', 'd', 'e']
  | .field it => ['_', 'f', '_'] ++ hostName it

def Thing.under : Thing → Spelling
  | .behavior name reached => '_' :: 'b' :: '_' :: (hostName name ++ reached.spelt)
  | .value name => '_' :: 'v' :: '_' :: (hostName name ++ [])
  | .type name reached => '_' :: 't' :: '_' :: (hostName name ++ reached.spelt)
  | .list element operation => '_' :: 'l' :: '_' :: (element.spelt ++ operation.spelt)
  | .function takes answers operation =>
    '_' :: 'f' :: 'n' :: '_' :: ((HostShape.function takes answers).spelt ++ operation.spelt)

theorem hostUnder_append (module : Spelling) (mark : Char) (name rest : Spelling) :
    hostUnder module mark name ++ rest =
      hostModule module ++ '_' :: mark :: '_' :: (hostName name ++ rest) := by
  simp [hostUnder]

theorem symbol_eq (module : Spelling) (thing : Thing) :
    thing.symbol module = some (hostModule module ++ thing.under) := by
  cases thing with
  | behavior name reached =>
    rw [Thing.under, ← hostUnder_append]
    cases reached with
    | call => simp [Thing.symbol, OfBehavior.spelt, hostBehaviorSymbol]
    | bind => simp [Thing.symbol, OfBehavior.spelt, hostBindSymbol]
    | implement => simp [Thing.symbol, OfBehavior.spelt, hostImplementSymbol]
    | implementation => simp [Thing.symbol, OfBehavior.spelt, hostImplementationType]
    | answerCase => simp [Thing.symbol, OfBehavior.spelt, hostBehaviorAnswerCaseSymbol]
    | exampleRow place => simp [Thing.symbol, OfBehavior.spelt, hostExampleSymbol]
    | owed place => simp [Thing.symbol, OfBehavior.spelt, hostOwedSymbol]
  | value name =>
    rw [Thing.under, ← hostUnder_append]
    exact congrArg some (List.append_nil _).symm
  | type name reached =>
    rw [Thing.under, ← hostUnder_append]
    cases reached with
    | construct => simp [Thing.symbol, OfType.spelt, hostConstructorSymbol]
    | case => simp [Thing.symbol, OfType.spelt, hostCaseSymbol]
    | decode => simp [Thing.symbol, OfType.spelt, hostDecodeSymbol]
    | decodeHost => simp [Thing.symbol, OfType.spelt, hostDecodeHostValueSymbol]
    | encode => simp [Thing.symbol, OfType.spelt, hostEncodeSymbol]
    | field it => simp [Thing.symbol, OfType.spelt, hostFieldSymbol]
  | list element operation => simp [Thing.symbol, Thing.under, hostListSymbol]
  | function takes answers operation => simp [Thing.symbol, Thing.under, hostFunctionSymbol]

theorem under_thing (thing : Thing) : Under thing.under := by
  cases thing with
  | behavior name reached => exact ⟨'b', _, rfl, by decide⟩
  | value name => exact ⟨'v', _, rfl, by decide⟩
  | type name reached => exact ⟨'t', _, rfl, by decide⟩
  | list element operation => exact ⟨'l', _, rfl, by decide⟩
  | function takes answers operation => exact ⟨'f', _, rfl, by decide⟩

theorem ends_behavior (reached : OfBehavior) : Ends reached.spelt := by
  cases reached <;> simp [OfBehavior.spelt, Ends]

theorem ends_type (reached : OfType) : Ends reached.spelt := by
  cases reached <;> simp [OfType.spelt, Ends]

theorem behavior_spelt_injective : Function.Injective OfBehavior.spelt := by
  intro reached other h
  cases reached with
  | exampleRow place =>
    cases other with
    | exampleRow other =>
      rw [OfBehavior.spelt, OfBehavior.spelt, List.append_right_inj] at h
      rw [decimal_injective h]
    | _ => simp [OfBehavior.spelt] at h
  | owed place =>
    cases other with
    | owed other =>
      rw [OfBehavior.spelt, OfBehavior.spelt, List.append_right_inj] at h
      rw [decimal_injective h]
    | _ => simp [OfBehavior.spelt] at h
  | call | bind | implement | implementation | answerCase =>
    cases other <;> first | rfl | simp [OfBehavior.spelt] at h

theorem type_spelt_injective : Function.Injective OfType.spelt := by
  intro reached other h
  cases reached with
  | field name =>
    cases other with
    | field other =>
      rw [OfType.spelt, OfType.spelt, List.append_right_inj] at h
      have hname : hostName name ++ [] = hostName other ++ [] := by rw [h]
      rw [(hostName_append ends_nil ends_nil hname).1]
    | _ => simp [OfType.spelt] at h
  | construct | case | decode | decodeHost | encode =>
    cases other <;> first | rfl | simp [OfType.spelt] at h

theorem closed_list (operation : HostListOperation) : Closed operation.spelt := by
  cases operation <;> exact .inr ⟨_, rfl⟩

theorem closed_function (operation : HostFunctionOperation) : Closed operation.spelt := by
  cases operation <;> exact .inr ⟨_, rfl⟩

theorem list_spelt_injective : Function.Injective HostListOperation.spelt := by
  intro operation other h
  cases operation <;> cases other <;> first | rfl | exact absurd h (by decide)

theorem function_spelt_injective : Function.Injective HostFunctionOperation.spelt := by
  intro operation other h
  cases operation <;> cases other <;> first | rfl | exact absurd h (by decide)

/-- What is under a module reads back: its mark says of which kind it is. -/
theorem under_injective : Function.Injective Thing.under := by
  intro thing other h
  cases thing with
  | behavior name reached =>
    cases other with
    | behavior other reached' =>
      have h := (List.cons.inj (List.cons.inj (List.cons.inj h).2).2).2
      obtain ⟨rfl, hreached⟩ := hostName_append (ends_behavior _) (ends_behavior _) h
      rw [behavior_spelt_injective hreached]
    | _ => exact absurd (List.cons.inj (List.cons.inj h).2).1 (by decide)
  | value name =>
    cases other with
    | value other =>
      have h := (List.cons.inj (List.cons.inj (List.cons.inj h).2).2).2
      rw [(hostName_append ends_nil ends_nil h).1]
    | _ => exact absurd (List.cons.inj (List.cons.inj h).2).1 (by decide)
  | type name reached =>
    cases other with
    | type other reached' =>
      have h := (List.cons.inj (List.cons.inj (List.cons.inj h).2).2).2
      obtain ⟨rfl, hreached⟩ := hostName_append (ends_type _) (ends_type _) h
      rw [type_spelt_injective hreached]
    | _ => exact absurd (List.cons.inj (List.cons.inj h).2).1 (by decide)
  | list element operation =>
    cases other with
    | list other operation' =>
      have h := (List.cons.inj (List.cons.inj (List.cons.inj h).2).2).2
      obtain ⟨rfl, hoperation⟩ := spelt_append (closed_list _) (closed_list _) h
      rw [list_spelt_injective hoperation]
    | _ => exact absurd (List.cons.inj (List.cons.inj h).2).1 (by decide)
  | function takes answers operation =>
    cases other with
    | function others answers' operation' =>
      have h := (List.cons.inj (List.cons.inj (List.cons.inj (List.cons.inj h).2).2).2).2
      obtain ⟨hshape, hoperation⟩ := spelt_append (closed_function _) (closed_function _) h
      rw [function_spelt_injective hoperation, (HostShape.function.inj hshape).1,
        (HostShape.function.inj hshape).2]
    | _ => exact absurd (List.cons.inj (List.cons.inj h).2).1 (by decide)

def goesOn (c : Char) : Bool := c.isAlphanum || c == '_'

def identifier : Spelling → Bool
  | [] => false
  | c :: rest => c.isAlpha && rest.all goesOn

theorem goesOn_of_alphanum {c : Char} (h : c.isAlphanum = true) : goesOn c = true := by
  rw [goesOn, h, Bool.true_or]

theorem digits_go_on {b n : ℕ} (hb : 1 < b) (hb' : b ≤ 16) :
    (Nat.toDigits b n).all goesOn = true := by
  rw [List.all_eq_true]
  intro c hc
  exact goesOn_of_alphanum (alphanum_of_mem_toDigits hb hb' hc)

@[simp] theorem decimal_goes_on (n : ℕ) : (decimal n).all goesOn = true :=
  digits_go_on (by decide) (by decide)

theorem hostChar_goes_on (c : Char) : (hostChar c).all goesOn = true := by
  have hunder : goesOn '_' = true := by decide
  have hu : goesOn 'u' = true := by decide
  rw [hostChar]
  split_ifs with halnum hc
  · simp [goesOn_of_alphanum halnum]
  · simp [hunder]
  · simp [hunder, hu, hex, digits_go_on]

@[simp] theorem hostName_goes_on (name : Spelling) : (hostName name).all goesOn = true := by
  rw [hostName, List.all_flatMap, List.all_eq_true]
  intro c _
  exact hostChar_goes_on c

theorem segments_go_on (segments : List Spelling) :
    (segmentsSpelt segments).all goesOn = true := by
  rw [segmentsSpelt, List.all_flatMap, List.all_eq_true]
  intro segment _
  rw [List.all_append, hostName_goes_on, Bool.and_true]
  decide

@[simp] theorem leaf_goes_on (leaf : HostLeaf) : leaf.spelt.all goesOn = true := by
  cases leaf <;> decide

theorem each_goes_on {shapes : List HostShape}
    (h : ∀ shape ∈ shapes, shape.spelt.all goesOn = true) :
    (speltEach shapes).all goesOn = true := by
  induction shapes with
  | nil => rfl
  | cons shape shapes ih =>
    have hunder : goesOn '_' = true := by decide
    simp only [speltEach, List.all_cons, List.all_append, hunder, Bool.true_and,
      h shape List.mem_cons_self, ih (fun shape hmem => h shape (List.mem_cons_of_mem _ hmem))]

theorem mark_goes_on (shape : HostShape) : shape.mark.all goesOn = true := by
  have ho : goesOn 'o' = true := by decide
  have ht : goesOn 't' = true := by decide
  have hl : goesOn 'l' = true := by decide
  have hf : goesOn 'f' = true := by decide
  cases shape <;> simp [HostShape.mark, ho, ht, hl, hf]

theorem spelt_goes_on (shape : HostShape) : shape.spelt.all goesOn = true := by
  induction hn : sizeOf shape using Nat.strong_induction_on generalizing shape with
  | _ n ih =>
    rw [spelt_eq, List.all_append, mark_goes_on, Bool.true_and]
    exact each_goes_on fun part hpart => ih _ (hn ▸ sizeOf_parts hpart) part rfl

theorem behavior_goes_on (reached : OfBehavior) : reached.spelt.all goesOn = true := by
  cases reached <;> simp [OfBehavior.spelt, goesOn]

theorem type_goes_on (reached : OfType) : reached.spelt.all goesOn = true := by
  cases reached <;> simp [OfType.spelt, goesOn]

theorem under_goes_on (thing : Thing) : thing.under.all goesOn = true := by
  have hl (operation : HostListOperation) : operation.spelt.all goesOn = true := by
    cases operation <;> decide
  have hf (operation : HostFunctionOperation) : operation.spelt.all goesOn = true := by
    cases operation <;> decide
  cases thing with
  | behavior name reached =>
    simp only [Thing.under, List.all_cons, List.all_append, hostName_goes_on, behavior_goes_on]
    decide
  | value name =>
    simp only [Thing.under, List.all_cons, List.all_append, hostName_goes_on]
    decide
  | type name reached =>
    simp only [Thing.under, List.all_cons, List.all_append, hostName_goes_on, type_goes_on]
    decide
  | list element operation =>
    simp only [Thing.under, List.all_cons, List.all_append, spelt_goes_on, hl]
    decide
  | function takes answers operation =>
    simp only [Thing.under, List.all_cons, List.all_append, spelt_goes_on, hf]
    decide

theorem hostStart_cons : ∃ rest, hostStart = 's' :: rest ∧ rest.all goesOn = true := by
  unfold hostStart
  exact ⟨"outher".toList ++ decimal ABI_GENERATION, rfl, by simp [goesOn]⟩

/-- A host reaches each thing by a C identifier of its own, and a shape is spelt one way. -/
theorem symbols_name_one_thing :
    (∃ symbolOf : Spelling × Thing → Spelling,
      (∀ module thing, thing.symbol module = some (symbolOf (module, thing))) ∧
      Function.Injective symbolOf ∧ ∀ named, identifier (symbolOf named) = true) ∧
    Function.Injective HostShape.spelt := by
  refine ⟨⟨fun named => hostModule named.1 ++ named.2.under, symbol_eq, ?_, ?_⟩, spelt_injective⟩
  · rintro ⟨module, thing⟩ ⟨other, thing'⟩ h
    obtain ⟨rfl, hunder⟩ := hostModule_append (under_thing thing) (under_thing thing') h
    rw [under_injective hunder]
  · rintro ⟨module, thing⟩
    obtain ⟨rest, hstart, hrest⟩ := hostStart_cons
    change identifier (hostModule module ++ thing.under) = true
    rw [hostModule_eq, hstart, List.cons_append, identifier, List.all_append, List.all_append,
      hrest, segments_go_on, under_goes_on]
    decide

end SoutherNative.HostSymbols
