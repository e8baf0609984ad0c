import SoutherNative.HostSymbols

set_option autoImplicit false

/-!
# What an object declares to the linker

Every name is written of parts with `$` between them. All but a held helper's copy are written of
parts that carry none, so they read back; a copy is written with the reference its module reaches it
by, which nothing holds to carry no `$`, and under a module whose dotted name another behavior's may
be.
-/
namespace SoutherNative.LinkerNames

open HostSymbols

def spellsAModule (name : Spelling) : Bool := !name.isEmpty && !name.contains '$'

def spellsAName (name : Spelling) : Bool :=
  !name.isEmpty && !name.contains '.' && !name.contains '$'

/-- `format!("souther{ABI_GENERATION}.{module}…")`. -/
def dotted (rest : Spelling) : Spelling := hostStart ++ '.' :: rest

def behaviorSymbol (module behavior : Spelling) : Option Spelling :=
  if spellsAModule module && spellsAName behavior then
    some (dotted (module ++ '.' :: behavior))
  else none

def heldSymbol (carrier reached : Spelling) : Option Spelling :=
  if spellsAModule carrier then some (dotted (carrier ++ '$' :: reached)) else none

/-- `souther<abi>.<module>$<mark>$<name>`. -/
def markedSymbol (mark : String) (module name : Spelling) : Option Spelling :=
  if spellsAModule module && spellsAName name then
    some (dotted (module ++ '$' :: (mark.toList ++ '$' :: name)))
  else none

def homeSymbol (module value : Spelling) : Option Spelling := markedSymbol "home" module value

def valueSymbol (module value : Spelling) : Option Spelling := markedSymbol "value" module value

def constructorSymbol (module name : Spelling) : Option Spelling :=
  markedSymbol "construct" module name

def checkedConstructorSymbol (module name : Spelling) : Option Spelling :=
  markedSymbol "checked" module name

def readerSymbol (module name : Spelling) : Option Spelling := markedSymbol "read" module name

def exampleSymbol (module behavior : Spelling) (place : ℕ) : Option Spelling :=
  (behaviorSymbol module behavior).map (fun symbol => symbol ++ "$example$".toList ++ decimal place)

def typeSymbol (module name : Spelling) : Option Spelling :=
  if spellsAModule module && spellsAName name then
    some ("souther$type$".toList ++ module ++ '$' :: name)
  else none

def boundarySymbol (entry : Spelling) : Spelling := entry ++ "$boundary".toList

def contractSymbol (mark : String) (module name : Spelling) : Option Spelling :=
  if (behaviorSymbol module name).isSome then some (mark.toList ++ (module ++ '.' :: name)) else none

inductive Reference
  | own (module name : Spelling)
  | ofModule (module name : Spelling)
  | library (under name : Spelling)
  deriving DecidableEq

def Reference.rendered : Reference → Spelling
  | .own _ name => name
  | .ofModule module name => module ++ '.' :: name
  | .library under name => under ++ '.' :: name

/-- A copy of a helper, by where it stands, the reference it is reached by and what each of its
    variables came to. -/
structure Copy (Ty : Type) where
  carrier : Spelling
  reached : Reference
  types : List (Option Ty)
  deriving DecidableEq

inductive OfRow
  | entry | boundary | keeps
  | standsIn (place : ℕ)
  | capability (place : ℕ)
  | requirements
  deriving DecidableEq

inductive OfBehavior
  | itself | boundary
  | row (place : ℕ) (reached : OfRow)
  deriving DecidableEq

inductive Mark
  | home | value | construct | checked | read
  deriving DecidableEq

inductive OfContract
  | ensures | unheld | hosted
  deriving DecidableEq

inductive Thing (Ty : Type)
  | behavior (module name : Spelling) (reached : OfBehavior)
  | marked (mark : Mark) (module name : Spelling)
  | copy (copy : Copy Ty)
  | contract (module name : Spelling) (reached : OfContract)
  | hostedFunction (module : Spelling) (takes : List HostShape) (answers : HostShape)
  | host (module : Spelling) (thing : HostSymbols.Thing)
  | token (module name : Spelling)

section Named

variable {Ty : Type} [DecidableEq Ty]

def ordinal (copies : List (Copy Ty)) (copy : Copy Ty) : ℕ :=
  ((copies.takeWhile (· ≠ copy)).filter
    (fun made => made.carrier = copy.carrier ∧ made.reached = copy.reached)).length

/-- What a copy is written as in its module: how it is reached, and which copy it is where the
    helper leaves a variable open. -/
def written (copies : List (Copy Ty)) (copy : Copy Ty) : Spelling :=
  if copy.types.isEmpty then copy.reached.rendered
  else copy.reached.rendered ++ '.' :: decimal (ordinal copies copy)

def rowSymbol (entry : Spelling) : OfRow → Spelling
  | .entry => entry
  | .boundary => boundarySymbol entry
  | .keeps => entry ++ "$keeps".toList
  | .standsIn place => entry ++ "$standsIn$".toList ++ decimal place
  | .capability place => entry ++ "$standsIn$".toList ++ decimal place ++ "$capability".toList
  | .requirements => entry ++ "$requirements".toList

def Thing.symbol (copies : List (Copy Ty)) : Thing Ty → Option Spelling
  | .behavior module name .itself => behaviorSymbol module name
  | .behavior module name .boundary => (behaviorSymbol module name).map boundarySymbol
  | .behavior module name (.row place reached) =>
    (exampleSymbol module name place).map (fun entry => rowSymbol entry reached)
  | .marked .home module name => homeSymbol module name
  | .marked .value module name => valueSymbol module name
  | .marked .construct module name => constructorSymbol module name
  | .marked .checked module name => checkedConstructorSymbol module name
  | .marked .read module name => readerSymbol module name
  | .copy it => heldSymbol it.carrier (written copies it)
  | .contract module name .ensures => contractSymbol "$ensures$" module name
  | .contract module name .unheld => contractSymbol "$unheld$" module name
  | .contract module name .hosted => contractSymbol "$hosted$" module name
  | .hostedFunction module takes answers =>
    (hostFunctionSymbol module (.function takes answers) .implement).map ("$hosted$".toList ++ ·)
  | .host module thing => thing.symbol module
  | .token module name => typeSymbol module name

inductive Answers
  | body | injected | elsewhere | composed | unwritten
  deriving DecidableEq

inductive Ensures
  | callee | crossing | none | undecided
  deriving DecidableEq

structure Target where
  module : Spelling
  name : Spelling
  is : Answers
  ensures : Ensures

def Target.declared (target : Target) : Spelling := target.module ++ '.' :: target.name

structure Definition where
  declared : Spelling
  published : Bool

structure Row where
  behavior : Spelling
  place : ℕ
  standsIn : List Spelling
  owed : Bool

/-- What a module of the document holds, but for what is written in its bodies. -/
structure Written where
  name : Spelling
  helpers : List Reference
  values : List Spelling
  entries : List Spelling
  definitions : List Definition
  rows : List Row

structure Document where
  modules : List Written
  behaviors : List Target

/-- What the passes over the bodies and the types find that a name is needed for: the copies the
    calls reach, each made once, the declarations a value is built, decided, read or tagged as, the
    published values of other builds, the rows whose answer compares, and what a host reaches. -/
structure Found (Ty : Type) where
  copies : List (Copy Ty)
  once : copies.Nodup
  marked : List (Mark × Spelling × Spelling)
  tagged : List (Spelling × Spelling)
  comparable : Spelling → Row → Bool
  functions : List (Spelling × List HostShape × HostShape)
  host : List (Spelling × HostSymbols.Thing)

def Document.builds (document : Document) (module : Spelling) : Bool :=
  document.modules.any (fun held => held.name = module)

def Target.hasSymbol (target : Target) : Bool :=
  match target.is with
  | .body | .composed | .elsewhere => true
  | .injected | .unwritten => false

def Target.byTheHost (document : Document) (target : Target) : Bool :=
  decide (target.is = .injected) && document.builds target.module

def Document.published (document : Document) (target : Target) : Bool :=
  document.modules.any (fun held => held.definitions.any
    (fun definition => decide (definition.declared = target.declared) && definition.published))

def Target.things (document : Document) (target : Target) : List (Thing Ty) :=
  let reached (it : OfBehavior) : Thing Ty := .behavior target.module target.name it
  let contract (it : OfContract) : Thing Ty := .contract target.module target.name it
  let here := decide (target.is = .body ∨ target.is = .composed)
  List.flatten
    [if target.hasSymbol then [reached .itself] else [],
      if here && document.published target then [reached .boundary] else [],
      match target.ensures with
      | .callee => [contract .ensures, contract .unheld]
      | .crossing => [contract .ensures]
      | .none | .undecided => [],
      if target.byTheHost document then [contract .hosted] else []]

def Row.things (document : Document) (found : Found Ty) (module : Spelling) (row : Row) :
    List (Thing Ty) :=
  let reached (it : OfRow) : Thing Ty := .behavior module row.behavior (.row row.place it)
  let hosted := document.behaviors.any (fun target =>
    decide (target.declared = module ++ '.' :: row.behavior) && target.byTheHost document)
  List.flatten
    [[reached .entry, reached .boundary],
      if hosted && !row.owed && found.comparable module row then [reached .keeps] else [],
      if row.standsIn.isEmpty then [] else [reached .requirements],
      (List.range row.standsIn.length).flatMap
        (fun place => [reached (.standsIn place), reached (.capability place)])]

def Written.things (document : Document) (found : Found Ty) (held : Written) : List (Thing Ty) :=
  List.flatten
    [held.values.map (Thing.marked .home held.name),
      held.entries.map (Thing.marked .value held.name),
      held.rows.flatMap (Row.things document found held.name)]

def Document.things (document : Document) (found : Found Ty) : List (Thing Ty) :=
  List.flatten
    [document.behaviors.flatMap (Target.things document),
      document.modules.flatMap (Written.things document found),
      found.copies.map Thing.copy,
      found.marked.map (fun it => Thing.marked it.1 it.2.1 it.2.2),
      found.tagged.map (fun it => Thing.token it.1 it.2),
      found.functions.map (fun it => Thing.hostedFunction it.1 it.2.1 it.2.2),
      found.host.map (fun it => Thing.host it.1 it.2)]

/-- What the object declares, each thing under its name. None where a behavior is not written, which
    is refused, and where a name can stand in no symbol. -/
def Document.declares (document : Document) (found : Found Ty) :
    Option (List (Thing Ty × Spelling)) :=
  if document.behaviors.any (fun target => target.is = .unwritten) then none
  else (document.things found).mapM
    (fun thing => (thing.symbol found.copies).map (fun symbol => (thing, symbol)))

end Named

def routed (module : Spelling) : Reference → Bool
  | .own declaring _ => declaring = module
  | .ofModule declaring _ => declaring ≠ module
  | .library _ _ => true

def Reference.declaration : Reference → Option (Spelling × Spelling)
  | .own module name | .ofModule module name => some (module, name)
  | .library _ _ => none

def Written.held (document : Document) (held : Written) : Bool :=
  spellsAModule held.name &&
  held.helpers.all (routed held.name) && decide held.helpers.Nodup &&
  held.values.all (fun value => spellsAName value &&
    !(held.helpers.any (fun helper => helper.declaration = some (held.name, value)))) &&
  decide held.values.Nodup && decide held.entries.Nodup &&
  decide (held.rows.map (fun row => (row.behavior, row.place))).Nodup &&
  held.rows.all (fun row => document.behaviors.any
    (fun target => target.declared = held.name ++ '.' :: row.behavior)) &&
  held.definitions.all (fun definition => document.behaviors.any
    (fun target => target.module = held.name && target.declared = definition.declared))

def Target.held (document : Document) (target : Target) : Bool :=
  spellsAModule target.module && spellsAName target.name &&
  (match target.is with
    | .body | .composed => document.modules.any (fun held => held.definitions.any
        (fun definition => definition.declared = target.declared))
    | .elsewhere => !document.builds target.module
    | .injected | .unwritten => true)

def Document.coherent (document : Document) : Bool :=
  decide (document.behaviors.map Target.declared).Nodup &&
  decide (document.modules.map Written.name).Nodup &&
  decide (document.modules.flatMap (fun held => held.definitions.map Definition.declared)).Nodup &&
  document.behaviors.all (Target.held document) && document.modules.all (Written.held document)

def Mark.text : Mark → Spelling
  | .home => "home".toList
  | .value => "value".toList
  | .construct => "construct".toList
  | .checked => "checked".toList
  | .read => "read".toList

def OfContract.text : OfContract → Spelling
  | .ensures => ['e', 'n', 's', 'u', 'r', 'e', 's']
  | .unheld => ['u', 'n', 'h', 'e', 'l', 'd']
  | .hosted => ['h', 'o', 's', 't', 'e', 'd']

def OfRow.parts : OfRow → List Spelling
  | .entry => []
  | .boundary => ["boundary".toList]
  | .keeps => ["keeps".toList]
  | .standsIn place => ["standsIn".toList, decimal place]
  | .capability place => ["standsIn".toList, decimal place, "capability".toList]
  | .requirements => ["requirements".toList]

def OfBehavior.parts : OfBehavior → List Spelling
  | .itself => []
  | .boundary => ["boundary".toList]
  | .row place reached => "example".toList :: decimal place :: reached.parts

section Parts

variable {Ty : Type} [DecidableEq Ty]

def Thing.parts (copies : List (Copy Ty)) : Thing Ty → List Spelling
  | .behavior module name reached => dotted (module ++ '.' :: name) :: reached.parts
  | .marked mark module name => [dotted module, mark.text, name]
  | .copy it => dotted it.carrier :: (written copies it).splitOn '$'
  | .contract module name reached => [[], reached.text, module ++ '.' :: name]
  | .hostedFunction module takes answers =>
    [[], OfContract.hosted.text,
      hostModule module ++ (HostSymbols.Thing.function takes answers .implement).under]
  | .host module thing => [hostModule module ++ thing.under]
  | .token module name => ["souther".toList, "type".toList, module, name]

theorem splitOn_part {part : Spelling} (h : '$' ∉ part) : part.splitOn '$' = [part] :=
  List.splitOn_eq_singleton h

/-- Parts none of which carries a `$` read back from being written with one before each. -/
theorem splitOn_parts {part : Spelling} (hpart : '$' ∉ part) {parts : List Spelling}
    (h : ∀ part ∈ parts, '$' ∉ part) :
    (part ++ parts.flatMap ('$' :: ·)).splitOn '$' = part :: parts := by
  induction parts generalizing part with
  | nil => rw [List.flatMap_nil, List.append_nil, splitOn_part hpart]
  | cons next parts ih =>
    rw [List.flatMap_cons, List.cons_append, List.splitOn_append_cons_self_of_not_mem hpart,
      ih (h next List.mem_cons_self) (fun part hmem => h part (List.mem_cons_of_mem _ hmem))]

theorem dollar_not_mem_module {name : Spelling} (h : spellsAModule name = true) : '$' ∉ name := by
  simp [spellsAModule] at h
  exact h.2

theorem dollar_not_mem_name {name : Spelling} (h : spellsAName name = true) : '$' ∉ name := by
  simp [spellsAName] at h
  exact h.2

theorem dot_not_mem_name {name : Spelling} (h : spellsAName name = true) : '.' ∉ name := by
  simp [spellsAName] at h
  exact h.1.2

theorem not_mem_of_goesOn {c : Char} (hc : goesOn c = false) {name : Spelling}
    (h : name.all goesOn = true) : c ∉ name := by
  intro hmem
  have := List.all_eq_true.mp h c hmem
  rw [hc] at this
  cases this

theorem dollar_not_mem_decimal (n : ℕ) : '$' ∉ decimal n :=
  not_mem_of_goesOn rfl (decimal_goes_on n)

theorem dot_not_mem_decimal (n : ℕ) : '.' ∉ decimal n :=
  not_mem_of_goesOn rfl (decimal_goes_on n)

theorem start_goes_on : hostStart.all goesOn = true := by
  obtain ⟨rest, hstart, hrest⟩ := hostStart_cons
  rw [hstart, List.all_cons, hrest]
  decide

theorem dollar_not_mem_dotted {rest : Spelling} (h : '$' ∉ rest) : '$' ∉ dotted rest := by
  rw [dotted, List.mem_append, List.mem_cons]
  rintro (hmem | hmem | hmem)
  · exact not_mem_of_goesOn rfl start_goes_on hmem
  · cases hmem
  · exact h hmem

theorem dollar_not_mem_declared {module name : Spelling} (hmodule : '$' ∉ module)
    (hname : '$' ∉ name) : '$' ∉ module ++ '.' :: name := by
  rw [List.mem_append, List.mem_cons]
  rintro (hmem | hmem | hmem)
  · exact hmodule hmem
  · cases hmem
  · exact hname hmem

theorem host_goes_on (module : Spelling) (thing : HostSymbols.Thing) :
    (hostModule module ++ thing.under).all goesOn = true := by
  rw [hostModule_eq, List.all_append, List.all_append, start_goes_on, segments_go_on,
    under_goes_on]
  rfl

theorem dollar_not_mem_behavior (reached : OfBehavior) :
    ∀ part ∈ reached.parts, '$' ∉ part := by
  have hrow (reached : OfRow) : ∀ part ∈ reached.parts, '$' ∉ part := by
    cases reached <;> simp [OfRow.parts, dollar_not_mem_decimal]
  cases reached with
  | itself => simp [OfBehavior.parts]
  | boundary => simp [OfBehavior.parts]
  | row place reached =>
    intro part hmem
    rcases List.mem_cons.mp hmem with rfl | hmem
    · decide
    · rcases List.mem_cons.mp hmem with rfl | hmem
      · exact dollar_not_mem_decimal place
      · exact hrow reached part hmem

theorem of_marked {mark : String} {module name symbol : Spelling}
    (h : markedSymbol mark module name = some symbol) :
    symbol = dotted module ++ '$' :: (mark.toList ++ '$' :: name) ∧ '$' ∉ module ∧ '$' ∉ name ∧
      '.' ∉ name := by
  rw [markedSymbol] at h
  split_ifs at h with hspelt
  rw [Bool.and_eq_true] at hspelt
  refine ⟨?_, dollar_not_mem_module hspelt.1, dollar_not_mem_name hspelt.2,
    dot_not_mem_name hspelt.2⟩
  rw [← Option.some.inj h, dotted, dotted, List.append_assoc, List.cons_append]

theorem of_behavior {module name symbol : Spelling} (h : behaviorSymbol module name = some symbol) :
    symbol = dotted (module ++ '.' :: name) ∧ '$' ∉ module ∧ '$' ∉ name ∧ '.' ∉ name := by
  rw [behaviorSymbol] at h
  split_ifs at h with hspelt
  rw [Bool.and_eq_true] at hspelt
  exact ⟨(Option.some.inj h).symm, dollar_not_mem_module hspelt.1, dollar_not_mem_name hspelt.2,
    dot_not_mem_name hspelt.2⟩

def Thing.Spelt : Thing Ty → Prop
  | .behavior module name _ | .marked _ module name | .contract module name _
  | .token module name => '$' ∉ module ∧ '$' ∉ name ∧ '.' ∉ name
  | .copy it => '$' ∉ it.carrier
  | .hostedFunction _ _ _ | .host _ _ => True

theorem spelt_of_marked (copies : List (Copy Ty)) {mark : Mark} {module name symbol : Spelling}
    (h : (Thing.marked mark module name).symbol copies = some symbol) :
    (symbol.splitOn '$' = [dotted module, mark.text, name]) ∧
      '$' ∉ module ∧ '$' ∉ name ∧ '.' ∉ name := by
  have hmark : '$' ∉ mark.text := by cases mark <;> decide
  have hspelt : symbol = dotted module ++ '$' :: (mark.text ++ '$' :: name) ∧
      '$' ∉ module ∧ '$' ∉ name ∧ '.' ∉ name := by
    cases mark <;> exact of_marked h
  obtain ⟨rfl, hmodule, hname, hdot⟩ := hspelt
  refine ⟨?_, hmodule, hname, hdot⟩
  rw [List.splitOn_append_cons_self_of_not_mem (dollar_not_mem_dotted hmodule),
    List.splitOn_append_cons_self_of_not_mem hmark, splitOn_part hname]

theorem rowSymbol_eq (entry : Spelling) (reached : OfRow) :
    rowSymbol entry reached = entry ++ reached.parts.flatMap ('$' :: ·) := by
  cases reached <;> simp [rowSymbol, OfRow.parts, boundarySymbol]

theorem spelt_of_behavior (copies : List (Copy Ty)) {module name symbol : Spelling}
    {reached : OfBehavior} (h : (Thing.behavior module name reached).symbol copies = some symbol) :
    symbol.splitOn '$' = dotted (module ++ '.' :: name) :: reached.parts ∧
      '$' ∉ module ∧ '$' ∉ name ∧ '.' ∉ name := by
  have hspelt : symbol = dotted (module ++ '.' :: name) ++ reached.parts.flatMap ('$' :: ·) ∧
      '$' ∉ module ∧ '$' ∉ name ∧ '.' ∉ name := by
    cases reached with
    | itself =>
      obtain ⟨rfl, hrest⟩ := of_behavior h
      exact ⟨(List.append_nil _).symm, hrest⟩
    | boundary =>
      obtain ⟨entry, hentry, rfl⟩ := Option.map_eq_some_iff.mp h
      obtain ⟨rfl, hrest⟩ := of_behavior hentry
      exact ⟨by simp [boundarySymbol, OfBehavior.parts], hrest⟩
    | row place reached =>
      obtain ⟨entry, hentry, rfl⟩ := Option.map_eq_some_iff.mp h
      obtain ⟨symbol, hsymbol, rfl⟩ := Option.map_eq_some_iff.mp hentry
      obtain ⟨rfl, hrest⟩ := of_behavior hsymbol
      exact ⟨by simp [rowSymbol_eq, OfBehavior.parts], hrest⟩
  obtain ⟨rfl, hmodule, hname, hdot⟩ := hspelt
  exact ⟨splitOn_parts (dollar_not_mem_dotted (dollar_not_mem_declared hmodule hname))
    (dollar_not_mem_behavior reached), hmodule, hname, hdot⟩

theorem of_contract {mark : String} {module name symbol : Spelling}
    (h : contractSymbol mark module name = some symbol) :
    symbol = mark.toList ++ (module ++ '.' :: name) ∧ '$' ∉ module ∧ '$' ∉ name ∧ '.' ∉ name := by
  rw [contractSymbol] at h
  split_ifs at h with hsome
  obtain ⟨entry, hentry⟩ := Option.isSome_iff_exists.mp hsome
  exact ⟨(Option.some.inj h).symm, (of_behavior hentry).2⟩

theorem spelt_of_contract (copies : List (Copy Ty)) {module name symbol : Spelling}
    {reached : OfContract} (h : (Thing.contract module name reached).symbol copies = some symbol) :
    symbol.splitOn '$' = [[], reached.text, module ++ '.' :: name] ∧
      '$' ∉ module ∧ '$' ∉ name ∧ '.' ∉ name := by
  have htext : '$' ∉ reached.text := by cases reached <;> decide
  have hspelt : symbol = '$' :: (reached.text ++ '$' :: (module ++ '.' :: name)) ∧
      '$' ∉ module ∧ '$' ∉ name ∧ '.' ∉ name := by
    cases reached <;>
    · obtain ⟨rfl, hrest⟩ := of_contract h
      exact ⟨by simp [OfContract.text], hrest⟩
  obtain ⟨rfl, hmodule, hname, hdot⟩ := hspelt
  refine ⟨?_, hmodule, hname, hdot⟩
  rw [← List.nil_append ('$' :: _), List.splitOn_append_cons_self_of_not_mem (by simp),
    List.splitOn_append_cons_self_of_not_mem htext,
    splitOn_part (dollar_not_mem_declared hmodule hname)]

theorem parts_of_symbol (copies : List (Copy Ty)) {thing : Thing Ty} {symbol : Spelling}
    (h : thing.symbol copies = some symbol) :
    symbol.splitOn '$' = thing.parts copies ∧ thing.Spelt := by
  cases thing with
  | behavior module name reached => exact spelt_of_behavior copies h
  | marked mark module name => exact spelt_of_marked copies h
  | copy it =>
    simp only [Thing.symbol, heldSymbol] at h
    split_ifs at h with hspelt
    have hcarrier := dollar_not_mem_module hspelt
    rw [← Option.some.inj h, dotted, ← List.cons_append, ← List.append_assoc]
    exact ⟨List.splitOn_append_cons_self_of_not_mem (dollar_not_mem_dotted hcarrier) _, hcarrier⟩
  | contract module name reached => exact spelt_of_contract copies h
  | hostedFunction module takes answers =>
    rw [Thing.symbol] at h
    obtain ⟨implement, himplement, rfl⟩ := Option.map_eq_some_iff.mp h
    have hsymbol := symbol_eq module (.function takes answers .implement)
    rw [HostSymbols.Thing.symbol, himplement, Option.some.injEq] at hsymbol
    have hdollar := not_mem_of_goesOn (c := '$') rfl
      (host_goes_on module (.function takes answers .implement))
    refine ⟨?_, trivial⟩
    have hmark : "$hosted$".toList ++ implement =
        '$' :: (OfContract.hosted.text ++ '$' :: implement) := by
      simp [OfContract.text]
    rw [hmark, ← List.nil_append ('$' :: _), List.splitOn_append_cons_self_of_not_mem (by simp),
      List.splitOn_append_cons_self_of_not_mem (by decide), hsymbol, splitOn_part hdollar]
    rfl
  | host module thing =>
    rw [Thing.symbol, symbol_eq, Option.some.injEq] at h
    rw [← h]
    exact ⟨splitOn_part (not_mem_of_goesOn rfl (host_goes_on module thing)), trivial⟩
  | token module name =>
    simp only [Thing.symbol, typeSymbol] at h
    split_ifs at h with hspelt
    rw [Bool.and_eq_true] at hspelt
    have hmodule := dollar_not_mem_module hspelt.1
    have hname := dollar_not_mem_name hspelt.2
    refine ⟨?_, hmodule, hname, dot_not_mem_name hspelt.2⟩
    have hsymbol : "souther$type$".toList ++ module ++ '$' :: name =
        "souther".toList ++ '$' :: ("type".toList ++ '$' :: (module ++ '$' :: name)) := by
      simp
    rw [← Option.some.inj h, hsymbol, List.splitOn_append_cons_self_of_not_mem (by decide),
      List.splitOn_append_cons_self_of_not_mem (by decide),
      List.splitOn_append_cons_self_of_not_mem hmodule, splitOn_part hname]
    rfl

theorem declared_injective {module other name name' : Spelling} (hname : '.' ∉ name)
    (hname' : '.' ∉ name') (h : module ++ '.' :: name = other ++ '.' :: name') :
    module = other ∧ name = name' := by
  have hreverse := congrArg List.reverse h
  rw [List.reverse_append, List.reverse_append, List.reverse_cons, List.reverse_cons,
    List.append_assoc, List.append_assoc] at hreverse
  obtain ⟨hnames, hmodules⟩ := run_append (fun hmem => hname (List.mem_reverse.mp hmem))
    (fun hmem => hname' (List.mem_reverse.mp hmem)) hreverse
  exact ⟨List.reverse_injective hmodules, List.reverse_injective hnames⟩

theorem dotted_injective : Function.Injective dotted := fun _ _ h =>
  (List.cons.inj (List.append_cancel_left h)).2

theorem dot_mem_dotted (rest : Spelling) : '.' ∈ dotted rest :=
  List.mem_append_right _ List.mem_cons_self

theorem dotted_ne_of_dot_not_mem {rest other : Spelling} (h : '.' ∉ other) : dotted rest ≠ other :=
  fun heq => h (heq ▸ dot_mem_dotted rest)

theorem dotted_ne_nil (rest : Spelling) : dotted rest ≠ [] :=
  dotted_ne_of_dot_not_mem List.not_mem_nil

theorem dotted_ne_souther (rest : Spelling) : dotted rest ≠ "souther".toList :=
  dotted_ne_of_dot_not_mem (by decide)

theorem nil_ne_souther : [] ≠ "souther".toList := by decide

theorem dot_not_mem_host (module : Spelling) (thing : HostSymbols.Thing) :
    '.' ∉ hostModule module ++ thing.under :=
  not_mem_of_goesOn rfl (host_goes_on module thing)

theorem row_parts_injective : Function.Injective OfRow.parts := by
  intro reached other h
  cases reached with
  | standsIn place =>
    cases other with
    | standsIn other => rw [decimal_injective (List.cons.inj (List.cons.inj h).2).1]
    | _ => simp [OfRow.parts] at h
  | capability place =>
    cases other with
    | capability other => rw [decimal_injective (List.cons.inj (List.cons.inj h).2).1]
    | _ => simp [OfRow.parts] at h
  | entry | boundary | keeps | requirements =>
    cases other <;> first | rfl | simp [OfRow.parts] at h

theorem behavior_parts_injective : Function.Injective OfBehavior.parts := by
  intro reached other h
  cases reached with
  | row place reached =>
    cases other with
    | row other reached' =>
      have h := (List.cons.inj h).2
      rw [decimal_injective (List.cons.inj h).1, row_parts_injective (List.cons.inj h).2]
    | _ => simp [OfBehavior.parts] at h
  | itself | boundary =>
    cases other <;> first | rfl | simp [OfBehavior.parts] at h

theorem behavior_parts_ne_marked (reached : OfBehavior) (mark : Mark) (name : Spelling) :
    reached.parts ≠ [mark.text, name] := by
  cases reached with
  | itself | boundary => simp [OfBehavior.parts]
  | row place reached =>
    intro h
    have hmark := (List.cons.inj h).1
    cases mark <;> exact absurd hmark (by decide)

theorem mark_text_injective : Function.Injective Mark.text := by
  intro mark other h
  cases mark <;> cases other <;> first | rfl | exact absurd h (by decide)

theorem contract_text_injective : Function.Injective OfContract.text := by
  intro reached other h
  cases reached <;> cases other <;> first | rfl | exact absurd h (by decide)

theorem host_injective {module other : Spelling} {thing thing' : HostSymbols.Thing}
    (h : hostModule module ++ thing.under = hostModule other ++ thing'.under) :
    module = other ∧ thing = thing' := by
  obtain ⟨hmodule, hunder⟩ := hostModule_append (under_thing thing) (under_thing thing') h
  exact ⟨hmodule, under_injective hunder⟩

theorem host_ne_nil (module : Spelling) (thing : HostSymbols.Thing) :
    hostModule module ++ thing.under ≠ [] := by
  obtain ⟨rest, hstart, -⟩ := hostStart_cons
  rw [hostModule_eq, hstart]
  simp

def Thing.isCopy : Thing Ty → Bool
  | .copy _ => true
  | _ => false

theorem parts_injective (copies : List (Copy Ty)) {thing other : Thing Ty} (hthing : thing.Spelt)
    (hother : other.Spelt) (hcopy : thing.isCopy = false) (hcopy' : other.isCopy = false)
    (h : thing.parts copies = other.parts copies) : thing = other := by
  cases thing with
  | copy it => cases hcopy
  | behavior module name reached =>
    have hhead := congrArg List.headI h
    cases other with
    | copy it => cases hcopy'
    | behavior module' name' reached' =>
      obtain ⟨rfl, rfl⟩ := declared_injective hthing.2.2 hother.2.2 (dotted_injective hhead)
      rw [behavior_parts_injective (List.cons.inj h).2]
    | marked mark module' name' =>
      exact absurd (List.cons.inj h).2 (behavior_parts_ne_marked reached mark name')
    | contract | hostedFunction => exact absurd hhead (dotted_ne_nil _)
    | host module' thing =>
      exact absurd hhead (dotted_ne_of_dot_not_mem (dot_not_mem_host module' thing))
    | token => exact absurd hhead (dotted_ne_souther _)
  | marked mark module name =>
    have hhead := congrArg List.headI h
    cases other with
    | copy it => cases hcopy'
    | behavior module' name' reached' =>
      exact absurd (List.cons.inj h).2.symm (behavior_parts_ne_marked reached' mark name)
    | marked mark' module' name' =>
      have hmark := List.cons.inj (List.cons.inj h).2
      rw [dotted_injective hhead, mark_text_injective hmark.1, (List.cons.inj hmark.2).1]
    | contract | hostedFunction => exact absurd hhead (dotted_ne_nil _)
    | host module' thing =>
      exact absurd hhead (dotted_ne_of_dot_not_mem (dot_not_mem_host module' thing))
    | token => exact absurd hhead (dotted_ne_souther _)
  | contract module name reached =>
    have hhead := congrArg List.headI h
    cases other with
    | copy it => cases hcopy'
    | behavior | marked => exact absurd hhead.symm (dotted_ne_nil _)
    | contract module' name' reached' =>
      have htext := List.cons.inj (List.cons.inj h).2
      obtain ⟨rfl, rfl⟩ :=
        declared_injective hthing.2.2 hother.2.2 (List.cons.inj htext.2).1
      rw [contract_text_injective htext.1]
    | hostedFunction module' takes answers =>
      have hspelt := (List.cons.inj (List.cons.inj (List.cons.inj h).2).2).1
      have hdot := dot_not_mem_host module' (.function takes answers .implement)
      rw [← hspelt] at hdot
      exact absurd (List.mem_append_right _ List.mem_cons_self) hdot
    | host module' thing => exact absurd hhead.symm (host_ne_nil module' thing)
    | token => exact absurd hhead nil_ne_souther
  | hostedFunction module takes answers =>
    have hhead := congrArg List.headI h
    cases other with
    | copy it => cases hcopy'
    | behavior | marked => exact absurd hhead.symm (dotted_ne_nil _)
    | contract module' name' reached' =>
      have hspelt := (List.cons.inj (List.cons.inj (List.cons.inj h).2).2).1
      have hdot := dot_not_mem_host module (.function takes answers .implement)
      rw [hspelt] at hdot
      exact absurd (List.mem_append_right _ List.mem_cons_self) hdot
    | hostedFunction module' takes' answers' =>
      obtain ⟨rfl, hthings⟩ :=
        host_injective (List.cons.inj (List.cons.inj (List.cons.inj h).2).2).1
      cases hthings
      rfl
    | host module' thing => exact absurd hhead.symm (host_ne_nil module' thing)
    | token => exact absurd hhead nil_ne_souther
  | host module thing =>
    have hhead := congrArg List.headI h
    cases other with
    | copy it => cases hcopy'
    | behavior | marked =>
      exact absurd hhead.symm (dotted_ne_of_dot_not_mem (dot_not_mem_host module thing))
    | contract | hostedFunction => exact absurd hhead (host_ne_nil module thing)
    | host module' thing' =>
      obtain ⟨rfl, rfl⟩ := host_injective hhead
      rfl
    | token => cases (List.cons.inj h).2
  | token module name =>
    have hhead := congrArg List.headI h
    cases other with
    | copy it => cases hcopy'
    | behavior | marked => exact absurd hhead.symm (dotted_ne_souther _)
    | contract | hostedFunction => exact absurd hhead.symm nil_ne_souther
    | host module' thing => cases (List.cons.inj h).2
    | token module' name' =>
      have hnames := List.cons.inj (List.cons.inj (List.cons.inj h).2).2
      rw [hnames.1, (List.cons.inj hnames.2).1]

theorem ordinal_cons (made : Copy Ty) (copies : List (Copy Ty)) (copy : Copy Ty) :
    ordinal (made :: copies) copy =
      if made = copy then 0
      else (if made.carrier = copy.carrier ∧ made.reached = copy.reached then 1 else 0) +
        ordinal copies copy := by
  rw [ordinal, ordinal, List.takeWhile_cons]
  by_cases h : made = copy
  · simp [h]
  · by_cases hhelper : made.carrier = copy.carrier ∧ made.reached = copy.reached
    · simp [h, hhelper, Nat.add_comm]
    · simp [h, hhelper]

theorem ordinal_injective {copies : List (Copy Ty)} {copy other : Copy Ty} (hmem : copy ∈ copies)
    (hmem' : other ∈ copies) (hcarrier : copy.carrier = other.carrier)
    (hreached : copy.reached = other.reached)
    (h : ordinal copies copy = ordinal copies other) : copy = other := by
  induction copies with
  | nil => cases hmem
  | cons made copies ih =>
    rw [ordinal_cons, ordinal_cons] at h
    by_cases hmade : made = copy
    · by_cases hmade' : made = other
      · exact hmade.symm.trans hmade'
      · rw [if_pos hmade, if_neg hmade', hmade, if_pos ⟨hcarrier, hreached⟩] at h
        omega
    · by_cases hmade' : made = other
      · rw [if_neg hmade, if_pos hmade', hmade', if_pos ⟨hcarrier.symm, hreached.symm⟩] at h
        omega
      · rw [if_neg hmade, if_neg hmade', hcarrier, hreached, Nat.add_left_cancel_iff] at h
        exact ih (List.mem_of_ne_of_mem (Ne.symm hmade) hmem)
          (List.mem_of_ne_of_mem (Ne.symm hmade') hmem') h

def Thing.beside : Thing Ty → Option (Spelling × Spelling)
  | .behavior module name .boundary => some (module ++ '.' :: name, "boundary".toList)
  | .behavior module name (.row place reached) =>
    some (module ++ '.' :: name, rowSymbol ("example$".toList ++ decimal place) reached)
  | .marked mark module name => some (module, mark.text ++ '$' :: name)
  | _ => none

/-- Which things would share a copy's name, by how the copy is written in its module. -/
theorem parts_eq_copy (copies : List (Copy Ty)) {thing : Thing Ty} {copy : Copy Ty}
    (hspelt : thing.Spelt) (hcopy : thing.isCopy = false) :
    thing.parts copies = (Thing.copy copy).parts copies ↔
      thing.beside = some (copy.carrier, written copies copy) := by
  have hsplit : (Thing.copy copy).parts copies =
      dotted copy.carrier :: (written copies copy).splitOn '$' := rfl
  rw [hsplit]
  generalize written copies copy = text
  have htext (part : Spelling) (parts : List Spelling) (hpart : '$' ∉ part)
      (hparts : ∀ part ∈ parts, '$' ∉ part) (whole : Spelling)
      (hwhole : whole = part ++ parts.flatMap ('$' :: ·)) :
      part :: parts = text.splitOn '$' ↔ whole = text := by
    rw [← splitOn_parts hpart hparts, hwhole]
    exact ⟨splitOn_injective, fun h => by rw [h]⟩
  cases thing with
  | copy it => cases hcopy
  | behavior module name reached =>
    simp only [Thing.parts, List.cons.injEq, dotted_injective.eq_iff]
    have hdollar := dollar_not_mem_behavior reached
    cases reached with
    | itself =>
      simp only [OfBehavior.parts, Thing.beside, reduceCtorEq, iff_false, not_and]
      exact fun _ h => List.splitOn_ne_nil '$' text h.symm
    | boundary =>
      rw [OfBehavior.parts, htext _ [] (by decide) (by simp) _ (List.append_nil _).symm]
      simp [Thing.beside]
    | row place reached =>
      rw [OfBehavior.parts, htext "example".toList (decimal place :: reached.parts) (by decide)
        (fun part hmem => hdollar part (List.mem_cons_of_mem _ hmem))
        (rowSymbol ("example$".toList ++ decimal place) reached) (by simp [rowSymbol_eq])]
      simp [Thing.beside]
  | marked mark module name =>
    have hmark : '$' ∉ mark.text := by cases mark <;> decide
    simp only [Thing.parts, List.cons.injEq, dotted_injective.eq_iff]
    rw [htext mark.text [name] hmark (by simpa using hspelt.2.1) (mark.text ++ '$' :: name)
      (by simp)]
    simp [Thing.beside]
  | contract | hostedFunction =>
    simp only [Thing.parts, List.cons.injEq, Thing.beside, reduceCtorEq, iff_false, not_and]
    exact fun h => absurd h.symm (dotted_ne_nil _)
  | host module thing =>
    simp only [Thing.parts, List.cons.injEq, Thing.beside, reduceCtorEq, iff_false, not_and]
    exact fun h => absurd h.symm (dotted_ne_of_dot_not_mem (dot_not_mem_host module thing))
  | token module name =>
    simp only [Thing.parts, List.cons.injEq, Thing.beside, reduceCtorEq, iff_false, not_and]
    exact fun h => absurd h.symm (dotted_ne_souther _)

theorem dot_not_mem_row (place : ℕ) (reached : OfRow) :
    '.' ∉ rowSymbol ("example$".toList ++ decimal place) reached := by
  cases reached <;> simp [rowSymbol, boundarySymbol, dot_not_mem_decimal]

omit [DecidableEq Ty] in
theorem beside_ne_numbered {thing : Thing Ty} (hspelt : thing.Spelt) (carrier reached : Spelling)
    (n : ℕ) : thing.beside ≠ some (carrier, reached ++ '.' :: decimal n) := by
  have hdot : '.' ∈ reached ++ '.' :: decimal n := List.mem_append_right _ List.mem_cons_self
  intro h
  cases thing with
  | behavior module name of =>
    cases of with
    | itself => cases h
    | boundary =>
      rw [← (Prod.mk.inj (Option.some.inj h)).2] at hdot
      exact absurd hdot (by decide)
    | row place reached =>
      rw [← (Prod.mk.inj (Option.some.inj h)).2] at hdot
      exact dot_not_mem_row place reached hdot
  | marked mark module name =>
    rw [← (Prod.mk.inj (Option.some.inj h)).2, List.mem_append, List.mem_cons] at hdot
    rcases hdot with hmem | hmem | hmem
    · cases mark <;> exact absurd hmem (by decide)
    · cases hmem
    · exact hspelt.2.2 hmem
  | copy | contract | hostedFunction | host | token => cases h

/-- What a document's helpers are called by, where every name is one thing's: none that leaves no
    variable open is reached, in a module, by what is written after the `$` of another name that
    module or the behavior called as it is has; and no two of one module are reached alike, or one
    as the other and which copy of it one is. -/
structure Clear (things : List (Thing Ty)) (copies : List (Copy Ty)) : Prop where
  beside : ∀ copy ∈ copies, copy.types = [] → ∀ thing ∈ things,
    thing.beside ≠ some (copy.carrier, copy.reached.rendered)
  alike : ∀ copy ∈ copies, ∀ other ∈ copies, copy.carrier = other.carrier →
    copy.reached ≠ other.reached → copy.types = [] → other.types = [] →
    copy.reached.rendered ≠ other.reached.rendered
  numbered : ∀ copy ∈ copies, ∀ other ∈ copies, copy.carrier = other.carrier →
    copy.reached ≠ other.reached → copy.types = [] → other.types ≠ [] →
    copy.reached.rendered ≠ other.reached.rendered ++ '.' :: decimal (ordinal copies other)
  bothNumbered : ∀ copy ∈ copies, ∀ other ∈ copies, copy.carrier = other.carrier →
    copy.reached ≠ other.reached → copy.types ≠ [] → other.types ≠ [] →
    ordinal copies copy = ordinal copies other →
    copy.reached.rendered ≠ other.reached.rendered

theorem written_bare (copies : List (Copy Ty)) {copy : Copy Ty} (h : copy.types = []) :
    written copies copy = copy.reached.rendered := by
  rw [written, h]
  rfl

theorem written_numbered (copies : List (Copy Ty)) {copy : Copy Ty} (h : copy.types ≠ []) :
    written copies copy = copy.reached.rendered ++ '.' :: decimal (ordinal copies copy) := by
  rw [written, if_neg (by simpa using h)]

/-- Two copies of one module written alike are one, where the module's helpers are reached apart. -/
theorem copy_of_written {things : List (Thing Ty)} {copies : List (Copy Ty)}
    (hclear : Clear things copies) {copy other : Copy Ty} (hmem : copy ∈ copies)
    (hmem' : other ∈ copies) (hcarrier : copy.carrier = other.carrier)
    (h : written copies copy = written copies other) : copy = other := by
  by_cases hreached : copy.reached = other.reached
  · by_cases htypes : copy.types = []
    · by_cases htypes' : other.types = []
      · cases copy
        cases other
        simp_all
      · rw [written_bare copies htypes, written_numbered copies htypes', hreached] at h
        simp at h
    · by_cases htypes' : other.types = []
      · rw [written_numbered copies htypes, written_bare copies htypes', hreached] at h
        simp at h
      · rw [written_numbered copies htypes, written_numbered copies htypes', hreached,
          List.append_cancel_left_eq, List.cons.injEq, decimal_injective.eq_iff] at h
        exact ordinal_injective hmem hmem' hcarrier hreached h.2
  · by_cases htypes : copy.types = []
    · by_cases htypes' : other.types = []
      · rw [written_bare copies htypes, written_bare copies htypes'] at h
        exact absurd h (hclear.alike copy hmem other hmem' hcarrier hreached htypes htypes')
      · rw [written_bare copies htypes, written_numbered copies htypes'] at h
        exact absurd h (hclear.numbered copy hmem other hmem' hcarrier hreached htypes htypes')
    · by_cases htypes' : other.types = []
      · rw [written_numbered copies htypes, written_bare copies htypes'] at h
        exact absurd h.symm
          (hclear.numbered other hmem' copy hmem hcarrier.symm (Ne.symm hreached) htypes' htypes)
      · rw [written_numbered copies htypes, written_numbered copies htypes'] at h
        obtain ⟨hrendered, hordinal⟩ :=
          declared_injective (dot_not_mem_decimal _) (dot_not_mem_decimal _) h
        exact absurd hrendered (hclear.bothNumbered copy hmem other hmem' hcarrier hreached htypes
          htypes' (decimal_injective hordinal))

theorem mem_of_mapM {α β : Type} {f : α → Option β} {xs : List α} {ys : List β}
    (h : xs.mapM f = some ys) :
    (∀ x ∈ xs, ∃ y ∈ ys, f x = some y) ∧ ∀ y ∈ ys, ∃ x ∈ xs, f x = some y := by
  induction xs generalizing ys with
  | nil =>
    cases h
    simp
  | cons x xs ih =>
    rw [List.mapM_cons] at h
    obtain ⟨y, hy, h⟩ := Option.bind_eq_some_iff.mp h
    obtain ⟨rest, hrest, h⟩ := Option.bind_eq_some_iff.mp h
    cases h
    have := ih hrest
    simp_all

theorem mem_declares {document : Document} {found : Found Ty} {names : List (Thing Ty × Spelling)}
    (h : document.declares found = some names) :
    (∀ thing ∈ document.things found,
      ∃ symbol, (thing, symbol) ∈ names ∧ thing.symbol found.copies = some symbol) ∧
    ∀ named ∈ names, named.1 ∈ document.things found ∧
      named.1.symbol found.copies = some named.2 := by
  rw [Document.declares] at h
  split_ifs at h
  obtain ⟨hthings, hnames⟩ := mem_of_mapM h
  constructor
  · intro thing hmem
    obtain ⟨named, hnamed, hsymbol⟩ := hthings thing hmem
    obtain ⟨symbol, hspelt, rfl⟩ := Option.map_eq_some_iff.mp hsymbol
    exact ⟨symbol, hnamed, hspelt⟩
  · intro named hmem
    obtain ⟨thing, hthing, hsymbol⟩ := hnames named hmem
    obtain ⟨symbol, hspelt, rfl⟩ := Option.map_eq_some_iff.mp hsymbol
    exact ⟨hthing, hspelt⟩

omit [DecidableEq Ty] in
theorem target_not_copy {document : Document} {target : Target} {thing : Thing Ty}
    (h : thing ∈ target.things document) : thing.isCopy = false := by
  simp only [Target.things, List.mem_flatten, List.mem_cons, List.not_mem_nil, or_false] at h
  obtain ⟨things, rfl | rfl | rfl | rfl, hmem⟩ := h
  · split_ifs at hmem <;> simp_all [Thing.isCopy]
  · split_ifs at hmem <;> simp_all [Thing.isCopy]
  · split at hmem <;> simp at hmem
    · rcases hmem with rfl | rfl <;> rfl
    · rw [hmem]
      rfl
  · split_ifs at hmem <;> simp_all [Thing.isCopy]

omit [DecidableEq Ty] in
theorem row_not_copy {document : Document} {found : Found Ty} {module : Spelling} {row : Row}
    {thing : Thing Ty} (h : thing ∈ row.things document found module) : thing.isCopy = false := by
  simp only [Row.things, List.mem_flatten, List.mem_cons, List.not_mem_nil, or_false] at h
  obtain ⟨things, rfl | rfl | rfl | rfl, hmem⟩ := h
  · rcases List.mem_cons.mp hmem with rfl | hmem
    · rfl
    · rw [List.mem_singleton.mp hmem]
      rfl
  · split_ifs at hmem <;> simp_all [Thing.isCopy]
  · split_ifs at hmem <;> simp_all [Thing.isCopy]
  · obtain ⟨place, -, hmem⟩ := List.mem_flatMap.mp hmem
    rcases List.mem_cons.mp hmem with rfl | hmem
    · rfl
    · rw [List.mem_singleton.mp hmem]
      rfl

omit [DecidableEq Ty] in
theorem written_not_copy {document : Document} {found : Found Ty} {held : Written}
    {thing : Thing Ty} (h : thing ∈ held.things document found) : thing.isCopy = false := by
  simp only [Written.things, List.mem_flatten, List.mem_cons, List.not_mem_nil, or_false] at h
  obtain ⟨things, rfl | rfl | rfl, hmem⟩ := h
  · obtain ⟨value, -, rfl⟩ := List.mem_map.mp hmem
    rfl
  · obtain ⟨value, -, rfl⟩ := List.mem_map.mp hmem
    rfl
  · obtain ⟨row, -, hmem⟩ := List.mem_flatMap.mp hmem
    exact row_not_copy hmem

omit [DecidableEq Ty] in
theorem copy_mem_things (document : Document) (found : Found Ty) (copy : Copy Ty) :
    Thing.copy copy ∈ document.things found ↔ copy ∈ found.copies := by
  simp only [Document.things, List.mem_flatten, List.mem_cons, List.not_mem_nil, or_false]
  constructor
  · rintro ⟨things, rfl | rfl | rfl | rfl | rfl | rfl | rfl, hmem⟩
    · obtain ⟨target, -, hmem⟩ := List.mem_flatMap.mp hmem
      cases target_not_copy hmem
    · obtain ⟨held, -, hmem⟩ := List.mem_flatMap.mp hmem
      cases written_not_copy hmem
    · obtain ⟨made, hmade, hcopy⟩ := List.mem_map.mp hmem
      cases hcopy
      exact hmade
    all_goals
      obtain ⟨it, -, hit⟩ := List.mem_map.mp hmem
      cases hit
  · intro hmem
    exact ⟨found.copies.map Thing.copy, by simp, List.mem_map_of_mem hmem⟩

theorem parts_eq_of_names {copies : List (Copy Ty)} {thing other : Thing Ty}
    {symbol symbol' : Spelling} (h : thing.symbol copies = some symbol)
    (h' : other.symbol copies = some symbol') :
    symbol = symbol' ↔ thing.parts copies = other.parts copies := by
  rw [← (parts_of_symbol copies h).1, ← (parts_of_symbol copies h').1]
  exact ⟨fun heq => by rw [heq], splitOn_injective⟩

theorem clear_of_apart {document : Document} {found : Found Ty}
    {names : List (Thing Ty × Spelling)} (h : document.declares found = some names)
    (hapart : ∀ named ∈ names, ∀ other ∈ names, named.2 = other.2 → named.1 = other.1) :
    Clear (document.things found) found.copies := by
  have hthings := (mem_declares h).1
  have hone {thing other : Thing Ty} (hmem : thing ∈ document.things found)
      (hmem' : other ∈ document.things found)
      (hparts : thing.parts found.copies = other.parts found.copies) : thing = other := by
    obtain ⟨symbol, hnamed, hsymbol⟩ := hthings thing hmem
    obtain ⟨symbol', hnamed', hsymbol'⟩ := hthings other hmem'
    exact hapart _ hnamed _ hnamed' ((parts_eq_of_names hsymbol hsymbol').mpr hparts)
  have hcopies {copy other : Copy Ty} (hmem : copy ∈ found.copies) (hmem' : other ∈ found.copies)
      (hcarrier : copy.carrier = other.carrier)
      (hwritten : written found.copies copy = written found.copies other) : copy = other := by
    have := hone ((copy_mem_things document found copy).mpr hmem)
      ((copy_mem_things document found other).mpr hmem')
      (by rw [Thing.parts, Thing.parts, hcarrier, hwritten])
    cases this
    rfl
  constructor
  · intro copy hmem htypes thing hthing hbeside
    have hcopy : thing.isCopy = false := by
      cases thing with
      | copy it => cases hbeside
      | _ => rfl
    obtain ⟨symbol, -, hsymbol⟩ := hthings thing hthing
    rw [← written_bare found.copies htypes,
      ← parts_eq_copy found.copies (parts_of_symbol found.copies hsymbol).2 hcopy] at hbeside
    rw [hone hthing ((copy_mem_things document found copy).mpr hmem) hbeside] at hcopy
    cases hcopy
  · intro copy hmem other hmem' hcarrier hreached htypes htypes' hrendered
    rw [← written_bare found.copies htypes, ← written_bare found.copies htypes'] at hrendered
    exact hreached (congrArg Copy.reached (hcopies hmem hmem' hcarrier hrendered))
  · intro copy hmem other hmem' hcarrier hreached htypes htypes' hrendered
    rw [← written_bare found.copies htypes, ← written_numbered found.copies htypes'] at hrendered
    exact hreached (congrArg Copy.reached (hcopies hmem hmem' hcarrier hrendered))
  · intro copy hmem other hmem' hcarrier hreached htypes htypes' hordinal hrendered
    refine hreached (congrArg Copy.reached (hcopies hmem hmem' hcarrier ?_))
    rw [written_numbered found.copies htypes, written_numbered found.copies htypes', hrendered,
      hordinal]

theorem apart_of_clear {document : Document} {found : Found Ty}
    {names : List (Thing Ty × Spelling)} (h : document.declares found = some names)
    (hclear : Clear (document.things found) found.copies) :
    ∀ named ∈ names, ∀ other ∈ names, named.2 = other.2 → named.1 = other.1 := by
  have hbeside {copy : Copy Ty} {thing : Thing Ty} (hmem : copy ∈ found.copies)
      (hthing : thing ∈ document.things found) (hspelt : thing.Spelt)
      (hcopy : thing.isCopy = false) :
      thing.parts found.copies ≠ (Thing.copy copy).parts found.copies := by
    rw [Ne, parts_eq_copy found.copies hspelt hcopy]
    by_cases htypes : copy.types = []
    · rw [written_bare found.copies htypes]
      exact hclear.beside copy hmem htypes thing hthing
    · rw [written_numbered found.copies htypes]
      exact beside_ne_numbered hspelt _ _ _
  intro named hnamed other hother heq
  obtain ⟨hthing, hsymbol⟩ := (mem_declares h).2 named hnamed
  obtain ⟨hthing', hsymbol'⟩ := (mem_declares h).2 other hother
  have hparts := (parts_eq_of_names hsymbol hsymbol').mp heq
  have hspelt := (parts_of_symbol found.copies hsymbol).2
  have hspelt' := (parts_of_symbol found.copies hsymbol').2
  generalize named.1 = thing at *
  generalize other.1 = thing' at *
  by_cases hcopy : thing.isCopy = true
  · cases thing with
    | copy copy =>
      rw [copy_mem_things] at hthing
      by_cases hcopy' : thing'.isCopy = true
      · cases thing' with
        | copy other =>
          rw [copy_mem_things] at hthing'
          rw [Thing.parts, Thing.parts, List.cons.injEq, dotted_injective.eq_iff] at hparts
          rw [copy_of_written hclear hthing hthing' hparts.1 (splitOn_injective hparts.2)]
        | _ => cases hcopy'
      · exact absurd hparts.symm (hbeside hthing hthing' hspelt' (by simpa using hcopy'))
    | _ => cases hcopy
  · by_cases hcopy' : thing'.isCopy = true
    · cases thing' with
      | copy other =>
        rw [copy_mem_things] at hthing'
        exact absurd hparts (hbeside hthing' hthing hspelt (by simpa using hcopy))
      | _ => cases hcopy'
    · exact parts_injective found.copies hspelt hspelt' (by simpa using hcopy)
        (by simpa using hcopy') hparts

/-- Every name an object declares is one thing's exactly where its helpers' references are clear of
    what else is named. -/
theorem names_one_thing_iff {document : Document} {found : Found Ty}
    {names : List (Thing Ty × Spelling)} (h : document.declares found = some names) :
    (∀ named ∈ names, ∀ other ∈ names, named.2 = other.2 → named.1 = other.1) ↔
      Clear (document.things found) found.copies :=
  ⟨clear_of_apart h, apart_of_clear h⟩

end Parts

def shop (helper : Spelling) : Document where
  modules :=
    [{ name := ['s'], helpers := [], values := [], entries := [],
       definitions := [⟨['s', '.', 'p'], true⟩], rows := [] },
      { name := ['s', '.', 'p'], helpers := [.own ['s', '.', 'p'] helper], values := [],
        entries := [], definitions := [], rows := [] }]
  behaviors := [⟨['s'], ['p'], .body, .none⟩]

def shopFound (helper : Spelling) : Found ℕ where
  copies := [⟨['s', '.', 'p'], .own ['s', '.', 'p'] helper, []⟩]
  once := List.nodup_singleton _
  marked := []
  tagged := []
  comparable := fun _ _ => false
  functions := []
  host := []

/-- The boundary of a behavior, and a helper of that reference held by a module called as the
    behavior is, are two things of one name. -/
theorem boundary_and_helper :
    (shop "boundary".toList).coherent = true ∧
    ∃ names, (shop "boundary".toList).declares (shopFound "boundary".toList) = some names ∧
      ∃ named ∈ names, ∃ other ∈ names, named.2 = other.2 ∧ named.1 ≠ other.1 := by
  refine ⟨by decide, _, rfl, ?_⟩
  refine ⟨_, List.mem_cons_of_mem _ List.mem_cons_self, _,
    List.mem_cons_of_mem _ (List.mem_cons_of_mem _ List.mem_cons_self), ?_, ?_⟩
  · simp [boundarySymbol, dotted, written, Reference.rendered]
  · simp

theorem names_one_thing_iff_shop :
    ∃ names, (shop ['c']).declares (shopFound ['c']) = some names ∧
      ((∀ named ∈ names, ∀ other ∈ names, named.2 = other.2 → named.1 = other.1) ↔
        Clear ((shop ['c']).things (shopFound ['c'])) (shopFound ['c']).copies) :=
  ⟨_, rfl, names_one_thing_iff rfl⟩

end SoutherNative.LinkerNames
