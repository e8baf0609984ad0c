import Mathlib
import SoutherNative.HostSymbols

set_option autoImplicit false

/-!
# A directory a build replaces

A build is written beside where it goes and put in its place once all of it is written. What stands
in a directory is the entries under its names, any of which a build may have left there before, and
any operation on it may fail.
-/
namespace SoutherNative.Replacing

open HostSymbols

abbrev Name := List Char

/-- Names are told apart by their characters. -/
local instance name_lawful : LawfulBEq Name := inferInstance

/-- What stands in a directory under a name, and whether a build of this kind wrote it. -/
structure Entry (K : Type) where
  name : Name
  content : K
  byBuild : Bool

inductive Standing (K : Type)
  | file
  | directory (entries : List (Entry K))

abbrev Beside (K : Type) := Name → Option (Standing K)

inductive Op
  | readTarget | createParents | createStaging | removeListed | removeStaging
  | writeMark | createFormer | deleteFormer
  | aside | place | back | removeFormer
  deriving DecidableEq

inductive Outcome
  | answered | refused
  deriving DecidableEq

variable {K : Type}

def move (one other : Name) (fs : Beside K) : Beside K :=
  Function.update (Function.update fs other (fs one)) one none

/-- What a build has before it touches a file, and what it writes: all of it, or what was written
when a file could not be. -/
structure Build (K : Type) where
  compiled : Bool
  whole : Bool
  files : List (Entry K)
  ours : ∀ entry ∈ files, entry.byBuild = true

structure Names where
  target : Name
  staging : Name
  former : Name
  beside : Name → Prop
  staging_beside : beside staging
  former_beside : beside former
  target_not_beside : ¬ beside target
  apart : staging ≠ former

/-- `Path::with_extension`, of a name with a dot after its first character. -/
def withExtension (name extension : Name) : Name :=
  (name.reverse.dropWhile (· ≠ '.')).reverse ++ extension

/-- `.{name}.writing-{pid}-{nanos}`. -/
def stagingName (name : Name) (pid nanos : ℕ) : Name :=
  '.' :: name ++ ".writing-".toList ++ decimal pid ++ '-' :: decimal nanos

theorem dot_not_mem_decimal (n : ℕ) : '.' ∉ decimal n := by
  intro h
  have hdigit : '.'.isAlphanum = true := alphanum_of_mem_toDigits (by decide) (by decide) h
  cases hdigit

/-- The directory what stood at the target is moved to is named without what sets one staging
directory apart from another. -/
theorem former_of_staging (name : Name) (pid nanos : ℕ) :
    withExtension (stagingName name pid nanos) "former".toList = '.' :: name ++ ".former".toList := by
  have hrest : ∀ c ∈ ("writing-".toList ++ decimal pid ++ '-' :: decimal nanos).reverse,
      decide (c ≠ '.') = true := by
    intro c hc
    rw [List.mem_reverse, List.mem_append, List.mem_append, List.mem_cons] at hc
    rw [decide_eq_true_eq]
    rintro rfl
    rcases hc with (hc | hc) | hc | hc
    · revert hc
      decide
    · exact dot_not_mem_decimal pid hc
    · cases hc
    · exact dot_not_mem_decimal nanos hc
  have hname : (stagingName name pid nanos).reverse =
      ("writing-".toList ++ decimal pid ++ '-' :: decimal nanos).reverse ++
        '.' :: ('.' :: name).reverse := by
    simp [stagingName]
  rw [withExtension, hname, List.dropWhile_append_of_pos hrest]
  simp

def namesOf (name : Name) (pid nanos : ℕ) : Names where
  target := name
  staging := stagingName name pid nanos
  former := withExtension (stagingName name pid nanos) "former".toList
  beside other := ∃ pid nanos, other = stagingName name pid nanos ∨
    other = withExtension (stagingName name pid nanos) "former".toList
  staging_beside := ⟨pid, nanos, .inl rfl⟩
  former_beside := ⟨pid, nanos, .inr rfl⟩
  target_not_beside := by
    rintro ⟨pid, nanos, h | h⟩
    · have hlength := congrArg List.length h
      simp only [stagingName, List.length_append, List.length_cons] at hlength
      omega
    · have hlength := congrArg List.length h
      rw [former_of_staging] at hlength
      simp only [List.length_append, List.length_cons] at hlength
      omega
  apart := by
    rw [former_of_staging, stagingName, List.append_assoc, List.append_assoc]
    intro h
    have htails := List.append_cancel_left h
    cases htails

def ownedNames (library : Name) : List Name :=
  ["souther.o".toList, "souther.h".toList, "souther.ffi.h".toList, "souther.json".toList, library]

/-- A build of the compiler: the list of what is exported, written beside the library for the
linker, is none of the files it is of. -/
structure Linked (K : Type) extends Build K where
  library : Name
  listed : K
  named : whole = true → files.map Entry.name = ownedNames library

def Linked.staged (build : Linked K) (fails : Op → Bool) : List (Entry K) :=
  build.files ++ if fails .removeListed then
    [⟨withExtension build.library "exported".toList, build.listed, true⟩] else []

def blocks : Option (Standing K) → Bool
  | none => false
  | some (.directory []) => false
  | some _ => true

def ownsTarget (owned : List Name) (fails : Op → Bool) : Option (Standing K) → Bool
  | none => true
  | some .file => false
  | some (.directory entries) => !fails .readTarget && entries.all (·.name ∈ owned)

section Run

variable (names : Names) (fails : Op → Bool) (left : List (Entry K))

/-- `Replacing::commit`. -/
def commit (fs : Beside K) : Outcome × Beside K :=
  if (fs names.target).isSome then
    if fails .aside || blocks (fs names.former) then (.refused, fs)
    else
      let aside := move names.target names.former fs
      if fails .place then
        if fails .back then (.refused, aside)
        else (.refused, move names.former names.target aside)
      else
        let placed := move names.staging names.target aside
        if fails .removeFormer then
          (.refused, Function.update placed names.former (some (.directory left)))
        else (.answered, Function.update placed names.former none)
  else if fails .place then (.refused, fs)
  else (.answered, move names.staging names.target fs)

/-- `library_for`. -/
def libraryFor (build : Linked K) (fs : Beside K) : Outcome × Beside K :=
  if !build.compiled then (.refused, fs)
  else if !ownsTarget (ownedNames build.library) fails (fs names.target) then (.refused, fs)
  else if fails .createParents then (.refused, fs)
  else if fails .createStaging || (fs names.staging).isSome then (.refused, fs)
  else
    let staged := Function.update fs names.staging (some (.directory (build.staged fails)))
    if build.whole then commit names fails left staged
    else if fails .removeStaging then
      (.refused, Function.update staged names.staging (some (.directory left)))
    else (.refused, Function.update staged names.staging none)

end Run

def Clear (names : Names) (fs : Beside K) : Prop :=
  ∀ name, names.beside name → fs name = none

theorem move_other {one other name : Name} (fs : Beside K) (h : name ≠ one) (h' : name ≠ other) :
    move one other fs name = fs name := by
  rw [move, Function.update_of_ne h, Function.update_of_ne h']

section Leaves

variable {names : Names} {fails : Op → Bool} {left : List (Entry K)} {build : Build K}
  {files staged : List (Entry K)} {earlier : Option (Standing K) → Prop} {fs : Beside K}

end Leaves

section Compiler

variable (names : Names) (fails : Op → Bool) (left : List (Entry K)) (build : Linked K)
  (fs : Beside K)

end Compiler

def bindingNames (name writing former : Name) : Names where
  target := name
  staging := name ++ ".writing-".toList ++ writing
  former := name ++ ".former-".toList ++ former
  beside other := ∃ digits, other = name ++ ".writing-".toList ++ digits ∨
    other = name ++ ".former-".toList ++ digits
  staging_beside := ⟨writing, .inl rfl⟩
  former_beside := ⟨former, .inr rfl⟩
  target_not_beside := by
    rintro ⟨digits, h | h⟩
    · have hlength := congrArg List.length h
      simp at hlength
    · have hlength := congrArg List.length h
      simp at hlength
  apart := by
    rw [List.append_assoc, List.append_assoc]
    intro h
    have htails := List.append_cancel_left h
    cases htails

/-- What a generation adds to the names it makes directories under, and that nothing stood there. -/
structure Temporary (name : Name) (fs : Beside K) where
  writing : Name
  former : Name
  writing_free : fs (name ++ ".writing-".toList ++ writing) = none
  former_free : fs (name ++ ".former-".toList ++ former) = none

def Temporary.names {name : Name} {fs : Beside K} (temporary : Temporary name fs) : Names :=
  bindingNames name temporary.writing temporary.former

/-- A generation: what it marks its directory with is read back as a mark of its own generator. -/
structure Generation (K : Type) extends Build K where
  generated : K → Bool
  marked : K
  own : generated marked = true

/-- `.souther-binding`, the file that marks a directory as a binding. -/
def mark : Name := ".souther-binding".toList

def Generation.staged (build : Generation K) : List (Entry K) :=
  build.files ++ [⟨mark, build.marked, true⟩]

/-- `BindingDirectory.replaceable`, where `generated` is whether what a file holds is a mark of the
generator that is run. -/
def replaceable (generated : K → Bool) (fails : Op → Bool) : Option (Standing K) → Bool
  | none => true
  | some .file => false
  | some (.directory entries) => !fails .readTarget && (entries.isEmpty ||
      entries.any fun entry => entry.name = mark && generated entry.content)

section Written

variable (names : Names) (fails : Op → Bool) (left : List (Entry K))

/-- `BindingDirectory.commit`. -/
def commitBinding (build : Generation K) (fs : Beside K) : Outcome × Beside K :=
  if fails .writeMark then (.refused, fs)
  else
  let fs := Function.update fs names.staging (some (.directory build.staged))
  if (fs names.target).isNone then
    if fails .place then (.refused, fs)
    else (.answered, move names.staging names.target fs)
  else if fails .createFormer then (.refused, fs)
  else if fails .deleteFormer then
    (.refused, Function.update fs names.former (some (.directory [])))
  else
    let freed := Function.update fs names.former none
    if fails .aside then (.refused, freed)
    else
      let aside := move names.target names.former freed
      if fails .place then
        if fails .back then (.refused, aside)
        else (.refused, move names.former names.target aside)
      else
        let placed := move names.staging names.target aside
        if fails .removeFormer then
          (.refused, Function.update placed names.former (some (.directory left)))
        else (.answered, Function.update placed names.former none)

/-- `BindingDirectory.abandon`, done on every way out of a build. -/
def abandon (ran : Outcome × Beside K) : Outcome × Beside K :=
  if (ran.2 names.staging).isSome then
    if fails .removeStaging then
      (.refused, Function.update ran.2 names.staging (some (.directory left)))
    else (ran.1, Function.update ran.2 names.staging none)
  else ran

/-- `BindingDirectory.written`. -/
def written (build : Generation K) (fs : Beside K) : Outcome × Beside K :=
  if !replaceable build.generated fails (fs names.target) then (.refused, fs)
  else if fails .createParents then (.refused, fs)
  else if fails .createStaging then (.refused, fs)
  else
    let staged := Function.update fs names.staging (some (.directory build.files))
    abandon names fails left
      (if build.whole then commitBinding names fails left build staged else (.refused, staged))

end Written

def Marked (fails : Op → Bool) (build : Build K) : Prop :=
  build.whole = true ∧ fails .writeMark = false

section Binding

variable {names : Names} {fs : Beside K} (fails : Op → Bool) (left : List (Entry K))
  (build : Generation K)

theorem abandon_other {ran : Outcome × Beside K} {other : Name}
    (h : other ≠ names.staging) : (abandon names fails left ran).2 other = ran.2 other := by
  unfold abandon
  split_ifs
  · exact Function.update_of_ne h _ _
  · exact Function.update_of_ne h _ _
  · rfl

theorem commit_binding_other {other : Name} (hstaging : other ≠ names.staging)
    (htarget : other ≠ names.target) (hformer : other ≠ names.former) (staged : Beside K) :
    (commitBinding names fails left build staged).2 other = staged other := by
  unfold commitBinding
  dsimp only
  split_ifs
  all_goals simp only [Function.update_of_ne hformer, move_other _ hstaging htarget,
    move_other _ htarget hformer, move_other _ hformer htarget, Function.update_of_ne hstaging]

/-- Nothing a generation does is done under a name other than its own three. -/
theorem written_other {other : Name} (hstaging : other ≠ names.staging)
    (htarget : other ≠ names.target) (hformer : other ≠ names.former) :
    (written names fails left build fs).2 other = fs other := by
  unfold written
  dsimp only
  split_ifs
  · rfl
  · rfl
  · rfl
  · rw [abandon_other fails left hstaging, commit_binding_other fails left build hstaging htarget
      hformer, Function.update_of_ne hstaging]
  · exact (abandon_other fails left hstaging).trans (Function.update_of_ne hstaging _ _)

end Binding

def linked : Linked Unit where
  compiled := true
  whole := true
  files := (ownedNames "libsouther.so".toList).map fun name => ⟨name, (), true⟩
  ours := by simp
  library := "libsouther.so".toList
  listed := ()
  named := by simp [Function.comp_def]

def stopped : Beside Unit :=
  move "out".toList (namesOf "out".toList 1 1).former
    (Function.update
      (Function.update (fun _ => none) "out".toList (some (.directory linked.files)))
      (namesOf "out".toList 1 1).staging (some (.directory linked.files)))

/-- `library_for` into what stands. -/
def built (fails : Op → Bool) (pid nanos : ℕ) (fs : Beside Unit) : Outcome × Beside Unit :=
  libraryFor (namesOf "out".toList pid nanos) fails [] linked fs

end SoutherNative.Replacing
