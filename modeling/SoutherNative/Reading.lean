import SoutherNative.Widening
import SoutherNative.ValueCollection

set_option autoImplicit false

/-!
# What a value is read as

What a value is whichever type it is held at, how a value laid out at a type is read as it, and what
a call of a function value comes to. Carrying out the plan of a widening keeps both.
-/
namespace SoutherNative.Reading
open Transport HashTrie Values Hashing Equality Restating Typing EqualHash Widening

variable {R Key : Type} [LinearOrder Key]

/-- What a value is, at whichever type it is held: a primitive as a case is the primitive, a set and
    a map are any listing of what they hold, and a function is the lifted function a call of it
    runs. -/
inductive Meaning (R : Type)
  | number (word : BitVec 64)
  | truth (truth : Bool)
  | amount (prim : Prim) (kept : R)
  | case (which : Case) (slots : List (Meaning R))
  | absent
  | present (held : Meaning R)
  | tuple (members : List (Meaning R))
  | list (elements : List (Meaning R))
  | set (members : List (Meaning R))
  | map (entries : List (Meaning R × Meaning R))
  | function (site : ℕ) (captures : List (Val R))

mutual

inductive Reads (declared : Declared) : Ty → Val R → Meaning R → Prop
  | int (word : BitVec 64) : Reads declared (.prim .int) (.word word) (.number word)
  | bool (truth : Bool) :
      Reads declared (.prim .bool) (.word (if truth then 1#64 else 0#64)) (.truth truth)
  | amount (p : Prim) (kept : R) : p ≠ .int → p ≠ .bool →
      Reads declared (.prim p) (.amount p kept) (.amount p kept)
  | carried {ty : Ty} {p : Prim} {value : Val R} {meaning : Meaning R} : ty.saysItsCase = true →
      Reads declared (.prim p) value meaning →
      Reads declared ty (.tagged (.primitive p) [value]) meaning
  | case {ty : Ty} {which : Case} {slots : List (Val R)} {meanings : List (Meaning R)} :
      ty.saysItsCase = true → (∀ p, which ≠ .primitive p) →
      ReadsEach declared (bodyOf declared which) slots meanings →
      Reads declared ty (.tagged which slots) (.case which meanings)
  | absent (held : Ty) : Reads declared (.option held) .absent .absent
  | held {held : Ty} {value : Val R} {meaning : Meaning R} : Reads declared held value meaning →
      Reads declared (.option held) (.held value) (.present meaning)
  | members {types : List Ty} {members : List (Val R)} {meanings : List (Meaning R)} :
      ReadsEach declared types members meanings →
      Reads declared (.tuple types) (.members members) (.tuple meanings)
  | list {element : Ty} {elements : List (Val R)} {meanings : List (Meaning R)} :
      ReadsAll declared element elements meanings →
      Reads declared (.list element) (.list elements) (.list meanings)
  | set {member : Ty} {entries : List (Entry (Val R) Int64)} {meanings listed : List (Meaning R)} :
      ReadsAll declared member (entries.map Entry.key) meanings → meanings.Perm listed →
      Reads declared (.set member) (.set entries) (.set listed)
  | map {key held : Ty} {entries : List (Entry (Val R) (Val R))} {keys values : List (Meaning R)}
      {listed : List (Meaning R × Meaning R)} :
      ReadsAll declared key (entries.map Entry.key) keys →
      ReadsAll declared held (entries.map Entry.value) values → (keys.zip values).Perm listed →
      Reads declared (.map key held) (.map entries) (.map listed)
  | lifted {takes : List Ty} {answers : Ty} (site : ℕ) (captures : List (Val R)) :
      Reads declared (.fn takes answers) (.closure (.lifted site) captures)
        (.function site captures)
  | wrap {takes takes' : List Ty} {answers answers' : Ty} {takes₁ : List Ty} {answers₁ : Ty}
      {value : Val R} {meaning : Meaning R} : Reads declared (.fn takes answers) value meaning →
      Reads declared (.fn takes₁ answers₁) (.closure (.wrap takes answers takes' answers') [value])
        meaning

inductive ReadsEach (declared : Declared) : List Ty → List (Val R) → List (Meaning R) → Prop
  | nil : ReadsEach declared [] [] []
  | cons {ty : Ty} {types : List Ty} {value : Val R} {values : List (Val R)} {meaning : Meaning R}
      {meanings : List (Meaning R)} : Reads declared ty value meaning →
      ReadsEach declared types values meanings →
      ReadsEach declared (ty :: types) (value :: values) (meaning :: meanings)

inductive ReadsAll (declared : Declared) : Ty → List (Val R) → List (Meaning R) → Prop
  | nil (ty : Ty) : ReadsAll declared ty [] []
  | cons {ty : Ty} {value : Val R} {values : List (Val R)} {meaning : Meaning R}
      {meanings : List (Meaning R)} : Reads declared ty value meaning →
      ReadsAll declared ty values meanings →
      ReadsAll declared ty (value :: values) (meaning :: meanings)

end

section Readable

variable {lowering : Lowerings R Key}

theorem exists_readsEach {types : List Ty} {values : List (Val R)}
    (hlen : types.length = values.length)
    (h : ∀ slot ∈ types.zip values, ∃ meaning, Reads lowering.declared slot.1 slot.2 meaning) :
    ∃ meanings, ReadsEach lowering.declared types values meanings := by
  induction types generalizing values with
  | nil =>
    obtain rfl := List.length_eq_zero_iff.mp hlen.symm
    exact ⟨[], .nil⟩
  | cons ty types ih =>
    cases values with
    | nil => cases hlen
    | cons value values =>
      obtain ⟨meaning, hone⟩ := h (ty, value) List.mem_cons_self
      obtain ⟨meanings, hrest⟩ := ih (Nat.succ.inj hlen)
        fun slot hslot => h slot (List.mem_cons_of_mem _ hslot)
      exact ⟨meaning :: meanings, .cons hone hrest⟩

theorem exists_readsAll {ty : Ty} {values : List (Val R)}
    (h : ∀ value ∈ values, ∃ meaning, Reads lowering.declared ty value meaning) :
    ∃ meanings, ReadsAll lowering.declared ty values meanings := by
  induction values with
  | nil => exact ⟨[], .nil ty⟩
  | cons value values ih =>
    obtain ⟨meaning, hone⟩ := h value List.mem_cons_self
    obtain ⟨meanings, hrest⟩ := ih fun it hit => h it (List.mem_cons_of_mem _ hit)
    exact ⟨meaning :: meanings, .cons hone hrest⟩

theorem reads_fn {takes takes' : List Ty} {answers answers' : Ty} {value : Val R}
    {meaning : Meaning R} (h : Reads lowering.declared (.fn takes answers) value meaning) :
    Reads lowering.declared (.fn takes' answers') value meaning := by
  cases h with
  | carried hcased | case hcased => cases hcased
  | lifted site captures => exact .lifted site captures
  | wrap hheld => exact .wrap hheld

/-- A value of a type is read. -/
theorem HasType.reads {ty : Ty} {value : Val R} (h : HasType lowering ty value) :
    ∃ meaning, Reads lowering.declared ty value meaning := by
  induction h with
  | int word => exact ⟨_, .int word⟩
  | bool truth => exact ⟨_, .bool truth⟩
  | amount p kept hint hbool => exact ⟨_, .amount p kept hint hbool⟩
  | @tagged ty leaves which slots hcased _ _ hlen _ ih =>
    by_cases hprim : ∃ p, which = .primitive p
    · obtain ⟨p, rfl⟩ := hprim
      obtain ⟨value, rfl⟩ := List.length_eq_one_iff.mp hlen.symm
      obtain ⟨meaning, hmeaning⟩ := ih (.prim p, value) List.mem_cons_self
      exact ⟨meaning, .carried hcased hmeaning⟩
    · obtain ⟨meanings, hmeanings⟩ := exists_readsEach hlen ih
      exact ⟨_, .case hcased (fun p hp => hprim ⟨p, hp⟩) hmeanings⟩
  | absent held => exact ⟨_, .absent held⟩
  | held _ ih =>
    obtain ⟨meaning, hmeaning⟩ := ih
    exact ⟨_, .held hmeaning⟩
  | members hlen _ ih =>
    obtain ⟨meanings, hmeanings⟩ := exists_readsEach hlen ih
    exact ⟨_, .members hmeanings⟩
  | list _ ih =>
    obtain ⟨meanings, hmeanings⟩ := exists_readsAll ih
    exact ⟨_, .list hmeanings⟩
  | @set member entries _ _ _ ih =>
    obtain ⟨meanings, hmeanings⟩ : ∃ meanings,
        ReadsAll lowering.declared member (entries.map Entry.key) meanings := by
      refine exists_readsAll fun value hvalue => ?_
      obtain ⟨entry, hentry, rfl⟩ := List.mem_map.mp hvalue
      exact ih entry hentry
    exact ⟨_, .set hmeanings (List.Perm.refl _)⟩
  | @map key held entries _ _ _ _ ihk ihv =>
    obtain ⟨keys, hkeys⟩ : ∃ keys,
        ReadsAll lowering.declared key (entries.map Entry.key) keys := by
      refine exists_readsAll fun value hvalue => ?_
      obtain ⟨entry, hentry, rfl⟩ := List.mem_map.mp hvalue
      exact ihk entry hentry
    obtain ⟨values, hvalues⟩ : ∃ values,
        ReadsAll lowering.declared held (entries.map Entry.value) values := by
      refine exists_readsAll fun value hvalue => ?_
      obtain ⟨entry, hentry, rfl⟩ := List.mem_map.mp hvalue
      exact ihv entry hentry
    exact ⟨_, .map hkeys hvalues (List.Perm.refl _)⟩
  | lifted => exact ⟨_, .lifted _ _⟩
  | wrap _ _ _ _ ih =>
    obtain ⟨meaning, hmeaning⟩ := ih
    exact ⟨meaning, .wrap hmeaning⟩
  | function _ _ ih =>
    obtain ⟨meaning, hmeaning⟩ := ih
    exact ⟨meaning, reads_fn hmeaning⟩

end Readable

section Carried

variable {lowering : Lowerings R Key}

def ReadsAs (lowering : Lowerings R Key) (narrow wide : Ty) (plan : Restatement) : Prop :=
  ∀ value, HasType lowering narrow value → ∀ meaning,
    Reads lowering.declared wide (carriedOut lowering plan narrow wide value) meaning ↔
      Reads lowering.declared narrow value meaning

theorem reads_tagged {declared : Declared} {ty ty' : Ty} (hcased' : ty'.saysItsCase = true)
    {which : Case} {slots : List (Val R)} {meaning : Meaning R}
    (h : Reads declared ty (.tagged which slots) meaning) :
    Reads declared ty' (.tagged which slots) meaning := by
  cases h with
  | carried _ hvalue => exact .carried hcased' hvalue
  | case _ hnot hslots => exact .case hcased' hnot hslots

theorem reads_carried {declared : Declared} {ty : Ty} (hcased : ty.saysItsCase = true) {p : Prim}
    {value : Val R} {meaning : Meaning R} :
    Reads declared ty (.tagged (.primitive p) [value]) meaning ↔
      Reads declared (.prim p) value meaning := by
  constructor
  · intro h
    cases h with
    | carried _ hvalue => exact hvalue
    | case _ hnot _ => exact absurd rfl (hnot p)
  · exact .carried hcased

theorem readsAll_map {declared : Declared} {a b : Ty} {f : Val R → Val R} {values : List (Val R)}
    (h : ∀ value ∈ values, ∀ meaning, Reads declared b (f value) meaning ↔
      Reads declared a value meaning) (meanings : List (Meaning R)) :
    ReadsAll declared b (values.map f) meanings ↔ ReadsAll declared a values meanings := by
  induction values generalizing meanings with
  | nil =>
    constructor <;>
    · intro hreads
      cases hreads
      exact .nil _
  | cons value values ih =>
    have hone := h value List.mem_cons_self
    have hrest := ih fun it hit => h it (List.mem_cons_of_mem _ hit)
    constructor
    · intro hreads
      cases hreads with
      | cons hvalue hvalues => exact .cons ((hone _).mp hvalue) ((hrest _).mp hvalues)
    · intro hreads
      cases hreads with
      | cons hvalue hvalues => exact .cons ((hone _).mpr hvalue) ((hrest _).mpr hvalues)

theorem readsAs_option {a b : Ty} {plan : Restatement} (h : ReadsAs lowering a b plan) :
    ReadsAs lowering (.option a) (.option b) (Restatement.overParts [plan] (.option plan)) := by
  intro value hvalue meaning
  obtain rfl | ⟨held, rfl, hheld⟩ := hvalue.option_inv
  · rw [carriedOut_absent]
    constructor <;>
    · intro hreads
      cases hreads
      exact .absent _
  · rw [carriedOut_held]
    constructor
    · intro hreads
      cases hreads with
      | held hinner => exact .held ((h held hheld _).mp hinner)
    · intro hreads
      cases hreads with
      | held hinner => exact .held ((h held hheld _).mpr hinner)

theorem readsAs_list {a b : Ty} {plan : Restatement} (h : ReadsAs lowering a b plan) :
    ReadsAs lowering (.list a) (.list b) (Restatement.overParts [plan] (.list plan)) := by
  intro value hvalue meaning
  obtain ⟨elements, rfl, helements⟩ := hvalue.list_inv
  have hall := readsAll_map fun it hit => h it (helements it hit)
  rw [carriedOut_list]
  constructor
  · intro hreads
    cases hreads with
    | list hmeanings => exact .list ((hall _).mp hmeanings)
  · intro hreads
    cases hreads with
    | list hmeanings => exact .list ((hall _).mpr hmeanings)

theorem readsAll_keys {V W : Type} {a b : Ty} {plan : Restatement} (h : ReadsAs lowering a b plan)
    {entries : List (Entry (Val R) V)} (hkept : Kept lowering a entries) (value : V → W)
    (meanings : List (Meaning R)) :
    ReadsAll lowering.declared b
        ((entries.map (carriedEntry lowering plan a b value)).map Entry.key) meanings ↔
      ReadsAll lowering.declared a (entries.map Entry.key) meanings := by
  rw [List.map_map, ← readsAll_map (a := a) (f := carriedOut lowering plan a b), List.map_map]
  · rfl
  · intro key hkey
    obtain ⟨entry, hentry, rfl⟩ := List.mem_map.mp hkey
    exact h entry.key (hkept.keys entry hentry)

theorem map_key_same {V : Type} (a b : Ty) (entries : List (Entry (Val R) V)) :
    (entries.map (carriedEntry lowering .same a b (id : V → V))).map Entry.key =
      entries.map Entry.key := by
  rw [List.map_map]
  refine List.map_congr_left fun entry _ => ?_
  change carriedOut lowering .same a b entry.key = entry.key
  exact carriedOut_same a b entry.key

theorem map_carriedOut_same (a b : Ty) (values : List (Val R)) :
    values.map (carriedOut lowering .same a b) = values := by
  have hsame : carriedOut lowering .same a b = id := funext fun value => carriedOut_same a b value
  rw [hsame, List.map_id]

theorem readsAll_values {v v' : Ty} {held : Restatement} (h : ReadsAs lowering v v' held)
    {entries : List (Entry (Val R) (Val R))}
    (htyped : ∀ entry ∈ entries, HasType lowering v entry.value) (meanings : List (Meaning R)) :
    ReadsAll lowering.declared v'
        ((entries.map Entry.value).map (carriedOut lowering held v v')) meanings ↔
      ReadsAll lowering.declared v (entries.map Entry.value) meanings := by
  refine readsAll_map (fun value hvalue => ?_) meanings
  obtain ⟨entry, hentry, rfl⟩ := List.mem_map.mp hvalue
  exact h entry.value (htyped entry hentry)

theorem readsEach_carried {as bs : List Ty} {plans : List Restatement} {members : List (Val R)}
    (hlen : as.length = bs.length) (hplans : as.length = plans.length)
    (h : ∀ slot ∈ (as.zip bs).zip plans, ReadsAs lowering slot.1.1 slot.1.2 slot.2)
    (hmembers : HasTypes lowering as members) (meanings : List (Meaning R)) :
    ReadsEach lowering.declared bs (carriedOutEach lowering plans as bs members) meanings ↔
      ReadsEach lowering.declared as members meanings := by
  induction hmembers generalizing bs plans meanings with
  | nil =>
    obtain rfl := List.length_eq_zero_iff.mp hlen.symm
    obtain rfl := List.length_eq_zero_iff.mp hplans.symm
    rw [carriedOutEach]
    simp
  | @cons a value as values hvalue _ ih =>
    cases bs with
    | nil => cases hlen
    | cons b bs =>
      cases plans with
      | nil => cases hplans
      | cons plan plans =>
        have hone := h ((a, b), plan) List.mem_cons_self value hvalue
        have hrest := ih (Nat.succ.inj hlen) (Nat.succ.inj hplans)
          fun slot hslot => h slot (List.mem_cons_of_mem _ hslot)
        rw [carriedOutEach]
        constructor
        · intro hreads
          cases hreads with
          | cons hvalue hvalues => exact .cons ((hone _).mp hvalue) ((hrest _).mp hvalues)
        · intro hreads
          cases hreads with
          | cons hvalue hvalues => exact .cons ((hone _).mpr hvalue) ((hrest _).mpr hvalues)

theorem readsAs_self (ty : Ty) : ReadsAs lowering ty ty .same := by
  intro value _ meaning
  rw [carriedOut_same]

theorem readsAs_noValue {narrow : Ty} (wide : Ty) (h : narrow.hasNoValue = true) :
    ReadsAs lowering narrow wide .same := by
  intro value hvalue
  rw [hvalue.hasNoValue] at h
  cases h

theorem readsAs_cases {narrow wide : Ty} (hcased : narrow.saysItsCase = true)
    (hcased' : wide.saysItsCase = true) : ReadsAs lowering narrow wide .same := by
  intro value hvalue meaning
  obtain ⟨leaves, which, slots, rfl, -⟩ := hvalue.tagged_inv hcased
  rw [carriedOut_same]
  exact ⟨reads_tagged hcased, reads_tagged hcased'⟩

theorem readsAs_carry (p : Prim) {wide : Ty} (hcased : wide.saysItsCase = true) :
    ReadsAs lowering (.prim p) wide (.carry p) := by
  intro value _ meaning
  rw [carriedOut]
  exact reads_carried hcased

theorem readsAs_uncarry {narrow : Ty} {leaves : List Case} (p : Prim)
    (hcased : narrow.saysItsCase = true) (hleaves : lowering.declared.casesOf narrow = some leaves)
    (hall : ∀ leaf ∈ leaves, leaf = .primitive p) :
    ReadsAs lowering narrow (.prim p) (.uncarry p) := by
  intro value hvalue meaning
  obtain ⟨held, rfl, -, -⟩ := tagged_of_all hcased hleaves hall hvalue
  rw [carriedOut]
  exact (reads_carried hcased).symm

theorem readsAs_set {a b : Ty} {plan : Restatement} (hcarries : Carries lowering a b plan)
    (h : ReadsAs lowering a b plan) :
    ReadsAs lowering (.set a) (.set b) (Restatement.overParts [plan] (.set plan)) := by
  intro value hvalue meaning
  obtain ⟨entries, rfl, hkept⟩ := hvalue.set_inv
  obtain ⟨entries', hcarried, hkeys⟩ : ∃ entries' : List (Entry (Val R) Int64),
      carriedOut lowering (Restatement.overParts [plan] (.set plan)) (.set a) (.set b)
        (.set entries) = .set entries' ∧ ∀ meanings,
        ReadsAll lowering.declared b (entries'.map Entry.key) meanings ↔
          ReadsAll lowering.declared a (entries.map Entry.key) meanings := by
    obtain ⟨rfl, hover⟩ | ⟨-, hover⟩ := overParts_one plan (.set plan)
    · refine ⟨entries, by rw [hover, carriedOut_same], fun meanings => ?_⟩
      have hkeys := readsAll_keys h hkept id meanings
      rwa [map_key_same] at hkeys
    · exact ⟨_, by rw [hover, carriedOut_set hcarries hkept], readsAll_keys h hkept _⟩
  rw [hcarried]
  constructor
  · intro hreads
    cases hreads with
    | set hmembers hperm => exact .set ((hkeys _).mp hmembers) hperm
  · intro hreads
    cases hreads with
    | set hmembers hperm => exact .set ((hkeys _).mpr hmembers) hperm

theorem readsAs_map {k k' v v' : Ty} {key held : Restatement} (hcarries : Carries lowering k k' key)
    (hk : ReadsAs lowering k k' key) (hv : ReadsAs lowering v v' held) :
    ReadsAs lowering (.map k v) (.map k' v') (Restatement.overParts [key, held] (.map key held)) := by
  intro value hvalue meaning
  obtain ⟨entries, rfl, hkept, htyped⟩ := hvalue.map_inv
  have hvalues := readsAll_values hv htyped
  obtain ⟨entries', hcarried, hkeys, hvalues⟩ : ∃ entries' : List (Entry (Val R) (Val R)),
      carriedOut lowering (Restatement.overParts [key, held] (.map key held)) (.map k v)
        (.map k' v') (.map entries) = .map entries' ∧
      (∀ meanings, ReadsAll lowering.declared k' (entries'.map Entry.key) meanings ↔
        ReadsAll lowering.declared k (entries.map Entry.key) meanings) ∧
      ∀ meanings, ReadsAll lowering.declared v' (entries'.map Entry.value) meanings ↔
        ReadsAll lowering.declared v (entries.map Entry.value) meanings := by
    obtain ⟨rfl, rfl, hover⟩ | hover := overParts_two key held (.map key held)
    · refine ⟨entries, by rw [hover, carriedOut_same], fun meanings => ?_, fun meanings => ?_⟩
      · have hkeys := readsAll_keys hk hkept id meanings
        rwa [map_key_same] at hkeys
      · have hvalues := hvalues meanings
        rwa [map_carriedOut_same] at hvalues
    · refine ⟨_, by rw [hover, carriedOut_map hcarries hkept], readsAll_keys hk hkept _, ?_⟩
      intro meanings
      rw [← hvalues, List.map_map, List.map_map]
      rfl
  rw [hcarried]
  constructor
  · intro hreads
    cases hreads with
    | map hkeyed hheld hperm => exact .map ((hkeys _).mp hkeyed) ((hvalues _).mp hheld) hperm
  · intro hreads
    cases hreads with
    | map hkeyed hheld hperm => exact .map ((hkeys _).mpr hkeyed) ((hvalues _).mpr hheld) hperm

theorem readsAs_tuple {as bs : List Ty} {plans : List Restatement}
    (hcarries : CarriesEach lowering as bs plans) (hlen : as.length = bs.length)
    (hplans : as.length = plans.length)
    (h : ∀ slot ∈ (as.zip bs).zip plans, ReadsAs lowering slot.1.1 slot.1.2 slot.2) :
    ReadsAs lowering (.tuple as) (.tuple bs) (Restatement.overParts plans (.tuple plans)) := by
  intro value hvalue meaning
  obtain ⟨members, rfl, hmembers⟩ := hvalue.tuple_inv
  have heach := readsEach_carried hlen hplans h hmembers
  rw [carriedOut_tuple hcarries hmembers]
  constructor
  · intro hreads
    cases hreads with
    | members hslots => exact .members ((heach _).mp hslots)
  · intro hreads
    cases hreads with
    | members hslots => exact .members ((heach _).mpr hslots)

theorem readsAs_function {takes takes' : List Ty} {answers answers' : Ty} {plan : Restatement}
    (hfunction : plan = .same ∨ ∃ plans held, plan = .function plans held) :
    ReadsAs lowering (.fn takes answers) (.fn takes' answers') plan := by
  intro value _ meaning
  rcases hfunction with rfl | ⟨plans, held, rfl⟩
  · rw [carriedOut_same]
    exact ⟨reads_fn, reads_fn⟩
  · rw [carriedOut]
    constructor
    · intro hreads
      cases hreads with
      | wrap hheld => exact hheld
    · exact .wrap

theorem readsAs_of_widens {narrow wide : Ty} {plan : Restatement}
    (h : Widens lowering.declared narrow wide plan) : ReadsAs lowering narrow wide plan := by
  induction h with
  | self ty => exact readsAs_self ty
  | cases hcased hcased' => exact readsAs_cases hcased hcased'
  | noValue wide hnone => exact readsAs_noValue wide hnone
  | carry p hcased => exact readsAs_carry p hcased
  | uncarry p hcased hleaves hall => exact readsAs_uncarry p hcased hleaves hall
  | option _ ih => exact readsAs_option ih
  | list _ ih => exact readsAs_list ih
  | set hpart ih => exact readsAs_set (carries_of_widens hpart) ih
  | map hkey _ ihk ihv => exact readsAs_map (carries_of_widens hkey) ihk ihv
  | tuple hlen hplans hparts ih =>
    exact readsAs_tuple (carriesEach_of hlen hplans fun slot hslot =>
      carries_of_widens (hparts slot hslot)) hlen hplans ih
  | function => exact readsAs_function ((overParts_or _ _).imp_right fun h => ⟨_, _, h⟩)

end Carried

def ANSWERED : ℤ := 0

inductive Called (R : Type)
  | answered (value : Val R)
  | ended (status : {status : ℤ // status ≠ ANSWERED})

def Called.map (restated : Val R → Val R) : Called R → Called R
  | .answered value => .answered (restated value)
  | .ended status => .ended status

theorem Called.map_id (called : Called R) : called.map id = called := by
  cases called <;> rfl

abbrev Runs (R : Type) := ℕ → List (Val R) → List (Val R) → Called R

/-- `wrapping`: a function value called. A wrapper restates what it is handed to what the function
    it holds takes, calls that, and restates its answer. -/
def call (lowering : Lowerings R Key) (runs : Runs R) (function : Val R)
    (arguments : List (Val R)) : Option (Called R) :=
  match function with
  | .closure (.lifted site) captures => some (runs site captures arguments)
  | .closure (.wrap fromTakes fromAnswers toTakes toAnswers) [held] =>
    match restatementEach toTakes fromTakes, restatement fromAnswers toAnswers with
    | .ok takes, .ok answers =>
      (call lowering runs held (carriedOutEach lowering takes toTakes fromTakes arguments)).map
        (Called.map (carriedOut lowering answers fromAnswers toAnswers))
    | _, _ => none
  | _ => none
termination_by sizeOf function

section Calling

variable {lowering : Lowerings R Key}

theorem restatement_self (ty : Ty) : restatement ty ty = .ok .same := by
  unfold restatement
  simp

theorem restatementEach_self (types : List Ty) :
    restatementEach types types = .ok (List.replicate types.length .same) := by
  induction types with
  | nil =>
    unfold restatementEach
    rfl
  | cons ty types ih =>
    unfold restatementEach
    rw [restatement_self, ih]
    rfl

def CallsAs (lowering : Lowerings R Key) (takes : List Ty) (answers : Ty) (takes' : List Ty)
    (answers' : Ty) (plan : Restatement) : Prop :=
  ∃ plans held, restatementEach takes' takes = .ok plans ∧ restatement answers answers' = .ok held ∧
    ∀ (runs : Runs R) (function : Val R) (arguments : List (Val R)),
      HasType lowering (.fn takes answers) function → HasTypes lowering takes' arguments →
      call lowering runs (carriedOut lowering plan (.fn takes answers) (.fn takes' answers') function)
          arguments =
        (call lowering runs function (carriedOutEach lowering plans takes' takes arguments)).map
          (Called.map (carriedOut lowering held answers answers'))

theorem map_called_same (a b : Ty) (called : Option (Called R)) :
    called.map (Called.map (carriedOut lowering .same a b)) = called := by
  have hsame : carriedOut lowering .same a b = id := funext fun value => carriedOut_same a b value
  have hid : Called.map (id : Val R → Val R) = id := funext Called.map_id
  rw [hsame, hid, Option.map_id, id]

theorem carriesEach_self (types : List Ty) :
    CarriesEach lowering types types (List.replicate types.length .same) := by
  induction types with
  | nil => exact .nil
  | cons ty types ih => exact .cons (carries_self ty) ih

/-- Where what is handed and what is answered is restated by leaving it, the call is the call. -/
theorem calls_same {takes takes' : List Ty} {answers answers' : Ty} {plans : List Restatement}
    (hcarries : CarriesEach lowering takes' takes plans) (hplans : plans.all Restatement.isSame = true)
    (runs : Runs R) (function : Val R) {arguments : List (Val R)}
    (harguments : HasTypes lowering takes' arguments) :
    call lowering runs function arguments =
      (call lowering runs function (carriedOutEach lowering plans takes' takes arguments)).map
        (Called.map (carriedOut lowering .same answers answers')) := by
  rw [map_called_same, hcarries.same hplans harguments]

theorem callsAs_self (takes : List Ty) (answers : Ty) :
    CallsAs lowering takes answers takes answers .same := by
  refine ⟨_, _, restatementEach_self takes, restatement_self answers, ?_⟩
  intro runs function arguments _ harguments
  rw [carriedOut_same]
  exact calls_same (carriesEach_self takes) (by simp [Restatement.isSame]) runs function harguments

theorem callsAs_parts {takes takes' : List Ty} {answers answers' : Ty} {plans : List Restatement}
    {held : Restatement} (hplans : restatementEach takes' takes = .ok plans)
    (hheld : restatement answers answers' = .ok held)
    (hcarries : CarriesEach lowering takes' takes plans) :
    CallsAs lowering takes answers takes' answers'
      (Restatement.overParts (plans ++ [held]) (.function plans held)) := by
  refine ⟨plans, held, hplans, hheld, fun runs function arguments _ harguments => ?_⟩
  by_cases hall : (plans ++ [held]).all Restatement.isSame = true
  · rw [Restatement.overParts, if_pos hall, carriedOut_same]
    rw [List.all_append, Bool.and_eq_true, List.all_cons, List.all_nil, Bool.and_true] at hall
    rw [of_isSame hall.2]
    exact calls_same hcarries hall.1 runs function harguments
  · rw [Restatement.overParts, if_neg hall, carriedOut]
    conv_lhs => rw [call, hplans, hheld]

/-- A function the checker lets stand as another, restated by the plan made for the two. -/
theorem callsAs {takes takes' : List Ty} {answers answers' : Ty} {plan : Restatement}
    (hfits : lowering.declared.fits (.fn takes answers) (.fn takes' answers') = true)
    (h : restatement (.fn takes answers) (.fn takes' answers') = .ok plan) :
    CallsAs lowering takes answers takes' answers' plan := by
  by_cases heq : takes = takes' ∧ answers = answers'
  · obtain ⟨rfl, rfl⟩ := heq
    rw [restatement_self, Except.ok.injEq] at h
    rw [← h]
    exact callsAs_self takes answers
  · unfold restatement at h
    rw [if_neg (by simpa [Ty.saysItsCase] using heq)] at h
    simp only at h
    split_ifs at h with hlen
    rw [not_not] at hlen
    obtain ⟨plans, hplans, h⟩ := of_bind h
    obtain ⟨held, hheld, rfl⟩ := of_map h
    obtain ⟨hparts, hslots⟩ := of_each hlen.symm hplans
    rw [fits_fn, Bool.and_eq_true, Bool.and_eq_true, List.all_eq_true] at hfits
    refine callsAs_parts hplans hheld (carriesEach_of hlen.symm hparts fun slot hslot => ?_)
    exact carries (hfits.1.2 _ (List.of_mem_zip hslot).1) (hslots slot hslot)

end Calling

def count : Val R → Option ℕ
  | .list elements => some elements.length
  | .members members => some members.length
  | .set entries => some entries.length
  | .map entries => some entries.length
  | _ => none

/-- What carrying a plan out over two types preserves. -/
structure Preserves (lowering : Lowerings R Key) (narrow wide : Ty) (plan : Restatement) : Prop where
  typed : ∀ value, HasType lowering narrow value →
    HasType lowering wide (carriedOut lowering plan narrow wide value)
  read : ∀ value, HasType lowering narrow value →
    ∃ meaning, Reads lowering.declared narrow value meaning
  reads : ReadsAs lowering narrow wide plan
  equal : ∀ one other, HasType lowering narrow one → HasType lowering narrow other →
    Equality.equal lowering wide (carriedOut lowering plan narrow wide one)
        (carriedOut lowering plan narrow wide other) =
      Equality.equal lowering narrow one other
  count : ∀ value, HasType lowering narrow value →
    count (carriedOut lowering plan narrow wide value) = count value
  calls : ∀ takes answers takes' answers', narrow = .fn takes answers → wide = .fn takes' answers' →
    CallsAs lowering takes answers takes' answers' plan
  same : plan = .same → ∀ value, HasType lowering narrow value →
    carriedOut lowering plan narrow wide value = value ∧ HasType lowering wide value

section Counting

variable {lowering : Lowerings R Key}

theorem count_carriedOut {narrow wide : Ty} {plan : Restatement}
    (h : Widens lowering.declared narrow wide plan) {value : Val R}
    (hvalue : HasType lowering narrow value) :
    count (carriedOut lowering plan narrow wide value) = count value := by
  have hsame : ∀ made : Restatement, made = .same →
      count (carriedOut lowering made narrow wide value) = count value := by
    rintro made rfl
    rw [carriedOut_same]
  cases h with
  | self | cases | noValue => exact hsame _ rfl
  | carry p =>
    rw [carriedOut]
    cases hvalue with
    | tagged hcased => cases hcased
    | _ => rfl
  | uncarry p hcased hleaves hall =>
    obtain ⟨held, rfl, -, hheld⟩ := tagged_of_all hcased hleaves hall hvalue
    rw [carriedOut]
    cases hheld with
    | tagged hcased => cases hcased
    | _ => rfl
  | option =>
    obtain rfl | ⟨held, rfl, -⟩ := hvalue.option_inv
    · rw [carriedOut_absent]
    · rw [carriedOut_held]
      rfl
  | list =>
    obtain ⟨elements, rfl, -⟩ := hvalue.list_inv
    rw [carriedOut_list, count, count, List.length_map]
  | set hpart =>
    obtain ⟨entries, rfl, hkept⟩ := hvalue.set_inv
    obtain ⟨-, hover⟩ | ⟨-, hover⟩ := overParts_one _ (.set _)
    · exact hsame _ hover
    · rw [hover, carriedOut_set (carries_of_widens hpart) hkept, count, count, List.length_map]
  | map hkey =>
    obtain ⟨entries, rfl, hkept, -⟩ := hvalue.map_inv
    obtain ⟨-, -, hover⟩ | hover := overParts_two _ _ (.map _ _)
    · exact hsame _ hover
    · rw [hover, carriedOut_map (carries_of_widens hkey) hkept, count, count, List.length_map]
  | tuple hlen hplans hparts =>
    obtain ⟨members, rfl, hmembers⟩ := hvalue.tuple_inv
    have heach := carriesEach_of hlen hplans fun slot hslot => carries_of_widens (hparts slot hslot)
    rw [carriedOut_tuple heach hmembers, count, count, ← (heach.typed hmembers).length_eq,
      ← hmembers.length_eq, hlen]
  | function =>
    rcases overParts_or _ _ with hover | hover
    · exact hsame _ hover
    · have hclosure : ∀ {ty : Ty} {value : Val R}, HasType lowering ty value →
          (∃ takes answers, ty = .fn takes answers) → count value = none := by
        intro ty value h
        induction h with
        | lifted | wrap => exact fun _ => rfl
        | function _ _ ih => exact fun _ => ih ⟨_, _, rfl⟩
        | tagged hcased =>
          rintro ⟨takes, answers, rfl⟩
          cases hcased
        | _ =>
          rintro ⟨takes, answers, hfn⟩
          cases hfn
      rw [hover, carriedOut, hclosure hvalue ⟨_, _, rfl⟩]
      rfl

/-- Carrying out the plan made for two types, of which the checker lets a value of the one stand as
    a value of the other, preserves the value. -/
theorem widening_preserves (lowering : Lowerings R Key) {narrow wide : Ty} {plan : Restatement}
    (hfits : lowering.declared.fits narrow wide = true) (h : restatement narrow wide = .ok plan) :
    Preserves lowering narrow wide plan where
  typed := (carries hfits h).typed
  read _ hvalue := HasType.reads hvalue
  reads := readsAs_of_widens (widens_of hfits h)
  equal := (carries hfits h).equal
  count _ hvalue := count_carriedOut (widens_of hfits h) hvalue
  calls := by
    rintro takes answers takes' answers' rfl rfl
    exact callsAs hfits h
  same := by
    rintro rfl value hvalue
    have htyped := (carries hfits h).typed value hvalue
    rw [carriedOut_same] at htyped ⊢
    exact ⟨rfl, htyped⟩

end Counting

section Functions

open ValueCollection

def numberOrUnit : Ty := .union ⟨[.primitive .int, .declared "A"], by simp⟩

def taking : Ty := .fn [numberOrUnit] (.set (.prim .int))

def answering : Ty := .fn [.prim .int] (.set numberOrUnit)

theorem leavesOf_numberOrUnit :
    units.casesOf numberOrUnit = some [.primitive .int, .declared "A"] := by decide

theorem fits_number : units.fits (.prim .int) numberOrUnit = true := by
  unfold Declared.fits
  rw [if_neg (by simp [numberOrUnit])]
  have hint : units.casesOf (.prim .int) = some [.primitive .int] := rfl
  have hleaves := leavesOf_numberOrUnit
  rw [numberOrUnit] at hleaves ⊢
  simp only [hint, hleaves]
  rfl

theorem restatement_number : restatement (.prim .int) numberOrUnit = .ok (.carry .int) := by
  unfold restatement
  rfl

/-- A function whose argument is carried to it and each of the numbers it answers carried back. -/
theorem widening_preserves_function : Preserves (Lowerings.plain units) taking answering
    (.function [.carry .int] (.set (.carry .int))) := by
  refine widening_preserves (Lowerings.plain units) ?_ ?_
  · change units.fits taking answering = true
    rw [taking, answering, fits_fn, fits_set, fits_number]
    simp [fits_number]
  · unfold restatement taking answering
    simp only [restatementEach, restatement_number]
    unfold restatement
    simp only [restatement_number]
    rfl

end Functions

end SoutherNative.Reading
