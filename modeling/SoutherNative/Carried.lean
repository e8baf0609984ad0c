import Mathlib
import SoutherNative.Transport
import SoutherNative.Closing

set_option autoImplicit false

/-!
# What has an external form

A declaration's values are written and read where everything they hold is. A type may hold itself, so
which declarations these are is not worked out from the ones that hold nothing up: it is what is left
when the ones that hold something with no form are struck, and then what holds one of those.
-/
namespace SoutherNative.Carried
open Transport Closing

inductive DeclaredBy
  | aModule | onThePath | theLanguage
  deriving DecidableEq

/-- A declaration, as the document lists it. -/
structure Listed where
  key : String
  by' : DeclaredBy

def named : Case → Option String
  | .declared declared => some declared
  | .primitive _ | .language _ => none

def primitiveReaches : Prim → List (Option String)
  | .int | .bool | .string | .decimal | .date | .time | .dateTime | .instant => []
  | .rational => [none]

def keyReaches : MapKey → List (Option String)
  | .namedKey case => [named case]
  | .text | .date | .time | .dateTime | .instant => []

def shapeReaches : CodecShape → List (Option String)
  | .scalar scalar => primitiveReaches scalar
  -- A primitive, or a case the language gives, has no codec as a field's type on its own.
  | .named case => [named case]
  | .optionOf present => shapeReaches present
  | .listOf element | .setOf element => shapeReaches element
  | .mapOf key value => keyReaches key ++ shapeReaches value

def caseReaches : Case → List (Option String)
  | .declared declared => [some declared]
  | .primitive prim => primitiveReaches prim
  | .language _ => []

/-- The declarations a value of one is written through, `none` for something with no external form. -/
def reaches : Declaration → List (Option String)
  | .product fields => fields.flatMap shapeReaches
  | .newtype field => shapeReaches field
  | .unit => []
  | .sum cases => cases.cases.flatMap caseReaches

def leads (declared : Declared) (key : String) : List (Option String) := reaches (declared.laid key)

def listed (declarations : List Listed) : Finset String :=
  ((declarations.filter fun declaration => declaration.by' ≠ .theLanguage).map Listed.key).toFinset

def carried (declarations : List Listed) (declared : Declared) : Finset String :=
  strike (leads declared) (listed declarations)

def reachedFrom (bound : ℕ) (roots : List String) (declared : Declared) : Option (Finset String) :=
  gather (leads declared) bound roots.reverse ∅

inductive Holds : CodecShape → Prim ⊕ Case → Prop
  | scalar (prim : Prim) : Holds (.scalar prim) (.inl prim)
  | named (case : Case) : Holds (.named case) (.inr case)
  | listOf {element : CodecShape} {held : Prim ⊕ Case} (h : Holds element held) :
    Holds (.listOf element) held
  | setOf {element : CodecShape} {held : Prim ⊕ Case} (h : Holds element held) :
    Holds (.setOf element) held
  | optionOf {present : CodecShape} {held : Prim ⊕ Case} (h : Holds present held) :
    Holds (.optionOf present) held
  | key (case : Case) (value : CodecShape) : Holds (.mapOf (.namedKey case) value) (.inr case)
  | value {key : MapKey} {value : CodecShape} {held : Prim ⊕ Case} (h : Holds value held) :
    Holds (.mapOf key value) held

def formed : Prim ⊕ Case → Prop
  | .inl prim => prim ≠ .rational
  | .inr case => ∃ declared, case = .declared declared

theorem mem_primitiveReaches {prim : Prim} {next : Option String} :
    next ∈ primitiveReaches prim ↔ prim = .rational ∧ next = none := by
  cases prim <;> simp [primitiveReaches]

theorem named_eq {case : Case} {key : String} : named case = some key ↔ case = .declared key := by
  cases case <;> simp [named]

theorem some_mem_shapeReaches {shape : CodecShape} {key : String} :
    some key ∈ shapeReaches shape ↔ Holds shape (.inr (.declared key)) := by
  induction shape with
  | scalar prim =>
    rw [shapeReaches, mem_primitiveReaches]
    exact ⟨fun h => absurd h.2 (by simp), fun h => by cases h⟩
  | named case =>
    rw [shapeReaches, List.mem_singleton, eq_comm, named_eq]
    constructor
    · rintro rfl
      exact .named _
    · intro h
      cases h
      rfl
  | listOf element ih =>
    rw [shapeReaches, ih]
    exact ⟨.listOf, fun h => by cases h; assumption⟩
  | setOf element ih =>
    rw [shapeReaches, ih]
    exact ⟨.setOf, fun h => by cases h; assumption⟩
  | optionOf present ih =>
    rw [shapeReaches, ih]
    exact ⟨.optionOf, fun h => by cases h; assumption⟩
  | mapOf mapKey value ih =>
    rw [shapeReaches, List.mem_append, ih]
    constructor
    · rintro (h | h)
      · cases mapKey with
        | namedKey case =>
          rw [keyReaches, List.mem_singleton, eq_comm, named_eq] at h
          exact h ▸ .key case value
        | _ => cases h
      · exact .value h
    · intro h
      cases h with
      | key case value => exact .inl (.head _)
      | value h => exact .inr h

theorem none_mem_shapeReaches {shape : CodecShape} :
    none ∈ shapeReaches shape ↔ ∃ held, Holds shape held ∧ ¬formed held := by
  have hnamed (case : Case) : named case = none ↔ ¬formed (.inr case) := by
    cases case <;> simp [named, formed]
  induction shape with
  | scalar prim =>
    rw [shapeReaches, mem_primitiveReaches]
    constructor
    · rintro ⟨rfl, -⟩
      exact ⟨_, .scalar _, by simp [formed]⟩
    · rintro ⟨held, h, hform⟩
      cases h
      exact ⟨not_not.mp hform, rfl⟩
  | named case =>
    rw [shapeReaches, List.mem_singleton, eq_comm, hnamed]
    constructor
    · exact fun h => ⟨_, .named case, h⟩
    · rintro ⟨held, h, hform⟩
      cases h
      exact hform
  | listOf element ih =>
    refine Iff.trans ih (exists_congr fun held => and_congr_left fun _ => ⟨.listOf, fun h => ?_⟩)
    cases h
    assumption
  | setOf element ih =>
    refine Iff.trans ih (exists_congr fun held => and_congr_left fun _ => ⟨.setOf, fun h => ?_⟩)
    cases h
    assumption
  | optionOf present ih =>
    refine Iff.trans ih (exists_congr fun held => and_congr_left fun _ => ⟨.optionOf, fun h => ?_⟩)
    cases h
    assumption
  | mapOf mapKey value ih =>
    rw [shapeReaches, List.mem_append]
    refine (or_congr_right ih).trans ?_
    constructor
    · rintro (h | ⟨held, h, hform⟩)
      · cases mapKey with
        | namedKey case =>
          rw [keyReaches, List.mem_singleton, eq_comm, hnamed] at h
          exact ⟨_, .key case value, h⟩
        | _ => cases h
      · exact ⟨held, .value h, hform⟩
    · rintro ⟨held, h, hform⟩
      cases h with
      | key case value =>
        refine .inl (List.mem_singleton.mpr ?_)
        exact ((hnamed case).mpr hform).symm
      | value h => exact .inr ⟨held, h, hform⟩

section

variable (declared : Declared)

def Through (key next : String) : Prop :=
  match declared.laid key with
  | .product fields => ∃ field ∈ fields, Holds field (.inr (.declared next))
  | .newtype field => Holds field (.inr (.declared next))
  | .unit => False
  | .sum cases => .declared next ∈ cases.cases

def Formed (key : String) : Prop :=
  match declared.laid key with
  | .product fields => ∀ field ∈ fields, ∀ held, Holds field held → formed held
  | .newtype field => ∀ held, Holds field held → formed held
  | .unit => True
  | .sum cases => .primitive .rational ∉ cases.cases

variable {declared}

theorem some_mem_leads {key next : String} : some next ∈ leads declared key ↔
    Through declared key next := by
  rw [leads, Through]
  cases declared.laid key with
  | product fields => simp only [reaches, List.mem_flatMap, some_mem_shapeReaches]
  | newtype field => exact some_mem_shapeReaches
  | unit => simp [reaches]
  | sum cases =>
    rw [reaches, List.mem_flatMap]
    constructor
    · rintro ⟨case, hcase, hnext⟩
      cases case with
      | declared key =>
        cases List.mem_singleton.mp hnext
        exact hcase
      | primitive prim => exact absurd (mem_primitiveReaches.mp hnext).2 (by simp)
      | language case => cases hnext
    · exact fun h => ⟨.declared next, h, .head _⟩

theorem none_mem_leads {key : String} : none ∉ leads declared key ↔ Formed declared key := by
  rw [leads, Formed]
  cases declared.laid key with
  | product fields =>
    simp only [reaches, List.mem_flatMap, none_mem_shapeReaches, not_exists, not_and, not_not]
  | newtype field =>
    simp only [reaches, none_mem_shapeReaches, not_exists, not_and, not_not]
  | unit => simp [reaches]
  | sum cases =>
    rw [reaches, List.mem_flatMap, not_iff_not]
    constructor
    · rintro ⟨case, hcase, hnone⟩
      cases case with
      | declared key => exact absurd (List.mem_singleton.mp hnone) (by simp)
      | primitive prim =>
        obtain ⟨rfl, -⟩ := mem_primitiveReaches.mp hnone
        exact hcase
      | language case => cases hnone
    · exact fun h => ⟨.primitive .rational, h, mem_primitiveReaches.mpr ⟨rfl, rfl⟩⟩

theorem reach_iff {key next : String} : Reach (leads declared) key next ↔
    Relation.ReflTransGen (Through declared) key next := by
  have hsame : (fun key next => some next ∈ leads declared key) = Through declared := by
    funext key next
    exact propext some_mem_leads
  rw [Reach, hsame]

/-- A declaration has an external form where every declaration its values are written through, in
    any number of steps and itself among them, is a module's and holds nothing without one. -/
theorem mem_carried (declarations : List Listed) (declared : Declared) (key : String) :
    key ∈ carried declarations declared ↔
      ∀ reached, Relation.ReflTransGen (Through declared) key reached →
        (∃ declaration ∈ declarations, declaration.key = reached ∧
          declaration.by' ≠ .theLanguage) ∧ Formed declared reached := by
  rw [carried, mem_strike]
  refine forall_congr' fun reached => ?_
  rw [reach_iff, none_mem_leads]
  refine imp_congr_right fun _ => and_congr_left fun _ => ?_
  simp only [listed, List.mem_toFinset, List.mem_map, List.mem_filter, decide_eq_true_eq]
  refine exists_congr fun declaration => ?_
  tauto

/-- The readers of some declarations that have external forms are worked out, and are of exactly the
    declarations their values are read through, each of which has one. -/
theorem reached_carried {declarations : List Listed} {declared : Declared} {roots : List String}
    (hroots : ∀ root ∈ roots, root ∈ carried declarations declared) :
    ∃ bound result, reachedFrom bound roots declared = some result ∧
      (∀ key, key ∈ result ↔ ∃ root ∈ roots, Relation.ReflTransGen (Through declared) root key) ∧
      ∀ key ∈ result, key ∈ carried declarations declared := by
  have hwithin : ∀ key ∈ carried declarations declared, ∀ next, some next ∈ leads declared key →
      next ∈ carried declarations declared := by
    intro key hkey next hnext
    exact (stays_iff.mp (strike_stays (leads declared) (listed declarations) key hkey)).2 next hnext
  obtain ⟨bound, result, h⟩ := gather_ends hwithin roots.reverse ∅ (by simpa using hroots)
  have hresult : ∀ key, key ∈ result ↔
      ∃ root ∈ roots, Relation.ReflTransGen (Through declared) root key := by
    intro key
    rw [mem_gather h (by intro thing hthing; cases hthing)]
    simp only [Finset.notMem_empty, false_or, List.mem_reverse, reach_iff]
  refine ⟨bound, result, h, hresult, ?_⟩
  intro key hkey
  obtain ⟨root, hroot, hreach⟩ := (hresult key).mp hkey
  rw [mem_carried]
  intro reached hfurther
  exact (mem_carried declarations declared root).mp (hroots root hroot) reached
    (hreach.trans hfurther)

end

def linked : Declared where
  laid _ := .product [.scalar .int, .optionOf (.named (.declared "m.Linked"))]
  settled _ _ _ _ h := by cases h

theorem linked_carried : "m.Linked" ∈ carried [⟨"m.Linked", .aModule⟩] linked := by
  rw [mem_carried]
  intro reached hreach
  have hsame : reached = "m.Linked" := by
    induction hreach with
    | refl => rfl
    | tail _ hnext _ =>
      obtain ⟨field, hfield, hholds⟩ := hnext
      rcases List.mem_cons.mp hfield with rfl | hfield
      · cases hholds
      · rw [List.mem_singleton.mp hfield] at hholds
        cases hholds with
        | optionOf h =>
          cases h
          rfl
  subst hsame
  refine ⟨⟨_, .head _, rfl, by decide⟩, ?_⟩
  intro field hfield held hholds
  rcases List.mem_cons.mp hfield with rfl | hfield
  · cases hholds
    simp [formed]
  · rw [List.mem_singleton.mp hfield] at hholds
    cases hholds with
    | optionOf h =>
      cases h
      exact ⟨_, rfl⟩

theorem reached_carried_linked : ∃ bound result,
    reachedFrom bound ["m.Linked"] linked = some result ∧
      (∀ key, key ∈ result ↔
        ∃ root ∈ ["m.Linked"], Relation.ReflTransGen (Through linked) root key) ∧
      ∀ key ∈ result, key ∈ carried [⟨"m.Linked", .aModule⟩] linked :=
  reached_carried fun _ hroot => List.mem_singleton.mp hroot ▸ linked_carried

end SoutherNative.Carried
