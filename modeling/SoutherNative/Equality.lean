import SoutherNative.Hashing

set_option autoImplicit false

/-!
# Whether two values are equal

The comparator of a type, over what two values of it are made of, and the equality of each type a
set or a map is kept over.
-/
namespace SoutherNative.Equality
open Transport HashTrie Values Hashing

variable {R Key : Type} [LinearOrder Key] (lowering : Lowerings R Key)

def asksItsCase (ty : Ty) : Bool :=
  match ty with
  | .ref (.declared key) =>
    match lowering.declared.laid key with
    | .sum _ => true
    | _ => false
  | .union _ => true
  | _ => false

theorem sizeOf_key {K V : Type} [SizeOf K] [SizeOf V] {entries : List (Entry K V)}
    {entry : Entry K V} (h : entry ∈ entries) : sizeOf entry.key < sizeOf entries := by
  have hlt := List.sizeOf_lt_of_mem h
  have hentry : sizeOf entry.key < sizeOf entry := by
    cases entry
    simp only [Entry.mk.sizeOf_spec]
    omega
  omega

theorem sizeOf_zip_pair {A : Type} [SizeOf A] {as bs : List A} {pair : A × A}
    (h : pair ∈ as.zip bs) : sizeOf pair.1 < sizeOf as ∧ sizeOf pair.2 < sizeOf bs :=
  ⟨List.sizeOf_lt_of_mem (List.of_mem_zip h).1, List.sizeOf_lt_of_mem (List.of_mem_zip h).2⟩

/-- Whether `a` and `b`, two values of `ty`, are equal. Two values of which one is laid out as no
    value of the type is are not. -/
def equal (ty : Ty) (a b : Val R) : Bool :=
  if ty.holdsNoValue then true
  else
    match ty, a, b with
    | .prim .int, a, b | .prim .bool, a, b => a.bits = b.bits
    | .prim p, .amount _ a, .amount _ b => lowering.primitives.compare p a b = 0
    | .ref (.language _), _, _ => true
    | .set member, .set as, .set bs =>
      as.length = bs.length && as.attach.all (fun a => bs.attach.any (fun b =>
        b.1.hash = a.1.hash && equal member b.1.key a.1.key))
    | .map key value, .map as, .map bs =>
      as.length = bs.length && as.attach.all (fun a =>
        match bs.attach.find? (fun b => b.1.hash = a.1.hash && equal key b.1.key a.1.key) with
        | some there => equal value a.1.value there.1.value
        | none => false)
    | .option held, .held a, .held b => equal held a b
    | .option _, .held _, _ | .option _, _, .held _ => false
    | .option _, _, _ => true
    | .tuple types, .members as, .members bs =>
      (types.zip (as.zip bs)).attach.all (fun slot => equal slot.1.1 slot.1.2.1 slot.1.2.2)
    | .list element, .list as, .list bs =>
      as.length = bs.length && (as.zip bs).attach.all (fun pair => equal element pair.1.1 pair.1.2)
    | ty, .tagged one as, .tagged other bs =>
      (!asksItsCase lowering ty || lowering.token one = lowering.token other) &&
        match caseOf lowering ty one with
        | some leaf =>
          ((bodyOf lowering.declared leaf).zip (as.zip bs)).attach.all
            (fun slot => equal slot.1.1 slot.1.2.1 slot.1.2.2)
        | none => false
    | _, _, _ => false
termination_by sizeOf a + sizeOf b
decreasing_by
  all_goals simp only [Val.held.sizeOf_spec, Val.members.sizeOf_spec, Val.list.sizeOf_spec,
    Val.map.sizeOf_spec, Val.set.sizeOf_spec, Val.tagged.sizeOf_spec]
  · have := sizeOf_key a.2
    have := sizeOf_key b.2
    omega
  · have := sizeOf_key a.2
    have := sizeOf_key b.2
    omega
  · have := sizeOf_value a.2
    have := sizeOf_value there.2
    omega
  · omega
  · obtain ⟨⟨ty, one, other⟩, hslot⟩ := slot
    have := sizeOf_zip_pair (List.of_mem_zip hslot).2
    simp only at this ⊢
    omega
  · have := sizeOf_zip_pair pair.2
    omega
  · obtain ⟨⟨ty, one, other⟩, hslot⟩ := slot
    have := sizeOf_zip_pair (List.of_mem_zip hslot).2
    simp only at this ⊢
    omega

section Equations

theorem all_attach {A : Type} (p : A → Bool) (list : List A) :
    list.attach.all (fun a => p a.1) = list.all p := by
  simp

theorem any_attach {A : Type} (p : A → Bool) (list : List A) :
    list.attach.any (fun a => p a.1) = list.any p := by
  simp

theorem find?_attach {A : Type} (p : A → Bool) (list : List A) :
    (list.attach.find? (fun a => p a.1)).map Subtype.val = list.find? p := by
  conv_rhs => rw [← List.attach_map_subtype_val list, List.find?_map]
  rfl

def slotsEqual (types : List Ty) (as bs : List (Val R)) : Bool :=
  (types.zip (as.zip bs)).all (fun slot => equal lowering slot.1 slot.2.1 slot.2.2)

/-- `souther_set_equal`, over the entries the tries of two sets list. -/
def setEqual (equal : Val R → Val R → Bool) (as bs : List (Entry (Val R) Int64)) : Bool :=
  as.length = bs.length && as.all (fun a => bs.any (fun b => b.hash = a.hash && equal b.key a.key))

/-- `souther_map_equal`, over the entries the tries of two maps list. -/
def mapEqual (keys values : Val R → Val R → Bool) (as bs : List (Entry (Val R) (Val R))) : Bool :=
  as.length = bs.length && as.all (fun a =>
    match bs.find? (fun b => b.hash = a.hash && keys b.key a.key) with
    | some there => values a.value there.value
    | none => false)

theorem equal_slots (types : List Ty) (as bs : List (Val R)) :
    (types.zip (as.zip bs)).attach.all
        (fun slot => equal lowering slot.1.1 slot.1.2.1 slot.1.2.2) =
      slotsEqual lowering types as bs :=
  all_attach (fun slot : Ty × Val R × Val R => equal lowering slot.1 slot.2.1 slot.2.2) _

theorem equal_int (a b : Val R) : equal lowering (.prim .int) a b = decide (a.bits = b.bits) := by
  unfold equal
  rfl

theorem equal_bool (a b : Val R) : equal lowering (.prim .bool) a b = decide (a.bits = b.bits) := by
  unfold equal
  rfl

theorem equal_amount {p : Prim} (hint : p ≠ .int) (hbool : p ≠ .bool) (a b : R) :
    equal lowering (.prim p) (.amount p a) (.amount p b) =
      decide (lowering.primitives.compare p a b = 0) := by
  cases p <;> first | contradiction | (unfold equal; rfl)

/-- The checker gives a function no equality. -/
theorem equal_fn (takes : List Ty) (answers : Ty) (a b : Val R) :
    equal lowering (.fn takes answers) a b = false := by
  unfold equal
  cases a <;> cases b <;> simp [Ty.holdsNoValue, caseOf]

theorem equal_tuple (types : List Ty) (as bs : List (Val R)) :
    equal lowering (.tuple types) (.members as) (.members bs) = slotsEqual lowering types as bs := by
  rw [equal, equal_slots]
  rfl

theorem equal_held (held : Ty) (a b : Val R) :
    equal lowering (.option held) (.held a) (.held b) =
      (held.hasNoValue || equal lowering held a b) := by
  rw [equal]
  cases h : held.hasNoValue <;> simp [Ty.holdsNoValue, h]

theorem equal_absent (held : Ty) : equal lowering (.option held) .absent (.absent : Val R) = true := by
  simp [equal]

theorem equal_list (element : Ty) (as bs : List (Val R)) :
    equal lowering (.list element) (.list as) (.list bs) =
      (element.hasNoValue || (as.length = bs.length &&
        (as.zip bs).all (fun pair => equal lowering element pair.1 pair.2))) := by
  rw [equal, all_attach (fun pair : Val R × Val R => equal lowering element pair.1 pair.2)]
  cases h : element.hasNoValue <;> simp [Ty.holdsNoValue, h]

theorem equal_set (member : Ty) (as bs : List (Entry (Val R) Int64)) :
    equal lowering (.set member) (.set as) (.set bs) =
      (member.hasNoValue || setEqual (equal lowering member) as bs) := by
  have hany : ∀ a : Entry (Val R) Int64, (bs.attach.any fun b =>
      b.1.hash = a.hash && equal lowering member b.1.key a.key) =
      bs.any (fun b => b.hash = a.hash && equal lowering member b.key a.key) :=
    fun a => any_attach (fun b => b.hash = a.hash && equal lowering member b.key a.key) bs
  rw [equal]
  simp only [hany, setEqual]
  rw [all_attach (fun a : Entry (Val R) Int64 =>
    bs.any (fun b => b.hash = a.hash && equal lowering member b.key a.key))]
  cases h : member.hasNoValue <;> simp [Ty.holdsNoValue, h]

theorem equal_map (key held : Ty) (as bs : List (Entry (Val R) (Val R))) :
    equal lowering (.map key held) (.map as) (.map bs) =
      (key.hasNoValue || held.hasNoValue ||
        mapEqual (equal lowering key) (equal lowering held) as bs) := by
  have hfind : ∀ a : Entry (Val R) (Val R),
      (match bs.attach.find? (fun b => b.1.hash = a.hash && equal lowering key b.1.key a.key) with
        | some there => equal lowering held a.value there.1.value
        | none => false) =
      (match bs.find? (fun b => b.hash = a.hash && equal lowering key b.key a.key) with
        | some there => equal lowering held a.value there.value
        | none => false) := by
    intro a
    rw [← find?_attach (fun b => b.hash = a.hash && equal lowering key b.key a.key) bs]
    cases bs.attach.find? (fun b => b.1.hash = a.hash && equal lowering key b.1.key a.key) <;> rfl
  rw [equal]
  simp only [hfind, mapEqual]
  rw [all_attach (fun a : Entry (Val R) (Val R) =>
    match bs.find? (fun b => b.hash = a.hash && equal lowering key b.key a.key) with
    | some there => equal lowering held a.value there.value
    | none => false)]
  cases h : key.hasNoValue <;> cases h' : held.hasNoValue <;> simp [Ty.holdsNoValue, h, h']

theorem equal_tagged {ty : Ty} {one leaf : Case} (other : Case) (as bs : List (Val R))
    (h : caseOf lowering ty one = some leaf) :
    equal lowering ty (.tagged one as) (.tagged other bs) =
      ((!asksItsCase lowering ty || lowering.token one = lowering.token other) &&
        slotsEqual lowering (bodyOf lowering.declared leaf) as bs) := by
  cases ty with
  | ref named =>
    cases named with
    | language case =>
      cases h
      simp [equal, Ty.holdsNoValue, asksItsCase, slotsEqual, bodyOf]
    | _ =>
      simp only [equal, h, equal_slots]
      simp [Ty.holdsNoValue]
  | union members =>
    simp only [equal, h, equal_slots]
    simp [Ty.holdsNoValue]
  | _ => cases h

end Equations

end SoutherNative.Equality
