import SoutherNative.Equality
import SoutherNative.AssociationList

set_option autoImplicit false

/-!
# A value of one type held as a value of another

The plan `restatement` makes over two types together, position by position, and what carrying it out
makes of a value. A set and a map are built again under the wider type's hasher and equality, and a
function is wrapped.
-/
namespace SoutherNative.Restating
open Transport HashTrie Values Hashing Equality

inductive Restatement
  | same
  | carry (prim : Prim)
  | uncarry (prim : Prim)
  | option (held : Restatement)
  | list (element : Restatement)
  | set (member : Restatement)
  | map (key value : Restatement)
  | tuple (members : List Restatement)
  | function (takes : List Restatement) (answers : Restatement)

namespace Restatement

def isSame : Restatement → Bool
  | .same => true
  | _ => false

def overParts (parts : List Restatement) (made : Restatement) : Restatement :=
  if parts.all isSame then .same else made

end Restatement

def anotherWay (narrow wide : Ty) : String :=
  s!"a value of {narrow.spelt} standing as {wide.spelt}, which holds what it is made of another way"

def restatementApart (narrow wide : Ty) : Lowered Restatement :=
  match narrow, wide with
  | .prim p, wide =>
    if wide.saysItsCase then .ok (.carry p)
    else match wide with
      | .var n => .error (openType n)
      | wide => .error (anotherWay (.prim p) wide)
  | .var n, _ => .error (openType n)
  | narrow, .prim p =>
    if narrow.saysItsCase then .ok (.uncarry p) else .error (anotherWay narrow (.prim p))
  | _, .var n => .error (openType n)
  | narrow, wide => .error (anotherWay narrow wide)

mutual

/-- What holding a value of `narrow` as a value of `wide` takes. -/
def restatement (narrow wide : Ty) : Lowered Restatement :=
  if narrow = wide || (narrow.saysItsCase && wide.saysItsCase) then .ok .same
  else
    match narrow, wide with
    | .nothing, _ | .never, _ => .ok .same
    | .option a, .option b =>
      (restatement a b).map (fun it => Restatement.overParts [it] (.option it))
    | .list a, .list b => (restatement a b).map (fun it => Restatement.overParts [it] (.list it))
    | .set a, .set b => (restatement a b).map (fun it => Restatement.overParts [it] (.set it))
    | .map key value, .map key' value' =>
      (restatement key key').bind (fun k =>
        (restatement value value').map (fun v => Restatement.overParts [k, v] (.map k v)))
    | .tuple as, .tuple bs =>
      if as.length ≠ bs.length then .error (anotherWay (.tuple as) (.tuple bs))
      else (restatementEach as bs).map (fun parts => Restatement.overParts parts (.tuple parts))
    | .fn takes answers, .fn takes' answers' =>
      if takes.length ≠ takes'.length then
        .error (anotherWay (.fn takes answers) (.fn takes' answers'))
      else
        (restatementEach takes' takes).bind (fun parts =>
          (restatement answers answers').map (fun it =>
            Restatement.overParts (parts ++ [it]) (.function parts it)))
    | narrow, wide => restatementApart narrow wide
termination_by sizeOf narrow + sizeOf wide

def restatementEach (narrow wide : List Ty) : Lowered (List Restatement) :=
  match narrow, wide with
  | a :: as, b :: bs =>
    (restatement a b).bind (fun part => (restatementEach as bs).map (part :: ·))
  | _, _ => .ok []
termination_by sizeOf narrow + sizeOf wide

end

section CarryingOut

variable {R Key : Type} [LinearOrder Key] (lowering : Lowerings R Key)

/-- `souther_set_from_list`: one of each that are equal, the first, under the hash of the type. -/
def setFromList (member : Ty) (list : List (Val R)) : List (Entry (Val R) Int64) :=
  (list.foldl (fun members it => AssociationList.add (equal lowering member) members it 0) []).map
    (fun entry => ⟨hash lowering member entry.1, entry.1, entry.2⟩)

/-- `souther_map_from_list`: a later pair's value under the key of the earlier it is equal to. -/
def mapFromList (key : Ty) (list : List (Val R × Val R)) : List (Entry (Val R) (Val R)) :=
  (list.foldl (fun entries pair =>
    AssociationList.replace (equal lowering key) entries pair.1 pair.2) []).map
    (fun entry => ⟨hash lowering key entry.1, entry.1, entry.2⟩)

mutual

/-- `value`, of type `narrow`, restated by the plan `restatement` answered for `narrow` and `wide`. -/
def carriedOut (plan : Restatement) (narrow wide : Ty) (value : Val R) : Val R :=
  match plan, narrow, wide, value with
  | .same, _, _, value => value
  | .carry p, _, _, value => .tagged (.primitive p) [value]
  | .uncarry _, _, _, .tagged _ (value :: _) => value
  | .option plan, .option a, .option b, .held value => .held (carriedOut plan a b value)
  | .list plan, .list a, .list b, .list elements => .list (elements.map (carriedOut plan a b))
  | .set plan, .set a, .set b, .set entries =>
    .set (setFromList lowering b (entries.map (fun entry => carriedOut plan a b entry.key)))
  | .map key held, .map k v, .map k' v', .map entries =>
    .map (mapFromList lowering k' (entries.map (fun entry =>
      (carriedOut key k k' entry.key, carriedOut held v v' entry.value))))
  | .tuple plans, .tuple as, .tuple bs, .members members =>
    .members (carriedOutEach plans as bs members)
  | .function _ _, .fn takes answers, .fn takes' answers', value =>
    .closure (.wrap takes answers takes' answers') [value]
  | _, _, _, value => value

def carriedOutEach (plans : List Restatement) (narrow wide : List Ty) (values : List (Val R)) :
    List (Val R) :=
  match plans, narrow, wide, values with
  | plan :: plans, a :: as, b :: bs, value :: values =>
    carriedOut plan a b value :: carriedOutEach plans as bs values
  | _, _, _, _ => []

end

end CarryingOut

end SoutherNative.Restating
