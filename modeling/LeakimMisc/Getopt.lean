/-
# The options of a command line

`getopt` of the GNU C library, called until it has no option left: a word that starts with `-`
holds options, one behind the other, up to the first one that takes an argument; the argument
is the rest of the word or the next word.  Other words are passed over, and `--` ends the
options.  A command line may spell the same options in several ways (`Spells`); one call of
`getopt` returns the first of them and leaves a spelling of the others (`Spells.getopt_cons`).
-/
import LeakimMisc.PyStr

open PyStr

namespace Getopt

/-- The letters of an option string, and whether they take an argument. -/
abbrev OptString := Char → Option Bool

/-- What is still to be read: the rest of a word, and the words behind it. -/
structure Scan where
  cur : Str
  words : List Str
  deriving DecidableEq

/-- The next word with options. -/
def nextWord : List Str → Option Scan
  | [] => none
  | ['-', '-'] :: _ => none
  | ('-' :: c :: cs) :: words => some ⟨c :: cs, words⟩
  | _ :: words => nextWord words

/-- The result for the letter `c`: the option, what is left in `optarg`, and what is still to be
read.  A letter that is not known, and an argument that is missing, give `?`. -/
def letter (opts : OptString) (c : Char) (cs : Str) (words : List Str) :
    Char × Option Str × Scan :=
  match opts c with
  | none => ('?', none, ⟨cs, words⟩)
  | some false => (c, none, ⟨cs, words⟩)
  | some true =>
    if cs ≠ [] then (c, some cs, ⟨[], words⟩)
    else
      match words with
      | [] => ('?', none, ⟨[], []⟩)
      | arg :: words => (c, some arg, ⟨[], words⟩)

/-- A call of `getopt`; `none` is -1.  `optarg` is null then, as for an option without an
argument. -/
def getopt (opts : OptString) (s : Scan) : Option (Char × Option Str × Scan) :=
  match s.cur with
  | c :: cs => some (letter opts c cs s.words)
  | [] => (nextWord s.words).bind fun s' =>
    match s'.cur with
    | [] => none
    | c :: cs => some (letter opts c cs s'.words)

/-- **The spellings of a list of options**, each with the argument it may have. -/
inductive Spells (opts : OptString) : Str → List Str → List (Char × Option Str) → Prop
  | nil : Spells opts [] [] []
  | word {c : Char} {cs : Str} {words : List Str} {os : List (Char × Option Str)} (hc : c ≠ '-')
      (h : Spells opts (c :: cs) words os) : Spells opts [] (('-' :: c :: cs) :: words) os
  | flag {c : Char} {cs : Str} {words : List Str} {os : List (Char × Option Str)}
      (hc : opts c = some false) (h : Spells opts cs words os) :
      Spells opts (c :: cs) words ((c, none) :: os)
  | attached {c : Char} {arg : Str} {words : List Str} {os : List (Char × Option Str)}
      (hc : opts c = some true) (harg : arg ≠ []) (h : Spells opts [] words os) :
      Spells opts (c :: arg) words ((c, some arg) :: os)
  | separate {c : Char} {arg : Str} {words : List Str} {os : List (Char × Option Str)}
      (hc : opts c = some true) (h : Spells opts [] words os) :
      Spells opts [c] (arg :: words) ((c, some arg) :: os)

variable {opts : OptString}

theorem letter_flag {c : Char} (hc : opts c = some false) (cs : Str) (words : List Str) :
    letter opts c cs words = (c, none, ⟨cs, words⟩) := by simp only [letter, hc]

theorem letter_attached {c : Char} (hc : opts c = some true) {arg : Str} (harg : arg ≠ [])
    (words : List Str) : letter opts c arg words = (c, some arg, ⟨[], words⟩) := by
  simp only [letter, hc, if_pos harg]

theorem letter_separate {c : Char} (hc : opts c = some true) (arg : Str) (words : List Str) :
    letter opts c [] (arg :: words) = (c, some arg, ⟨[], words⟩) := by
  simp only [letter, hc, if_neg (not_not.mpr rfl)]

theorem getopt_word {c : Char} (hc : c ≠ '-') (cs : Str) (words : List Str) :
    getopt opts ⟨[], ('-' :: c :: cs) :: words⟩ = getopt opts ⟨c :: cs, words⟩ := by
  have hword : nextWord (('-' :: c :: cs) :: words) = some ⟨c :: cs, words⟩ := by
    rw [nextWord]
    rintro rfl
    exact absurd rfl hc
  show (nextWord (('-' :: c :: cs) :: words)).bind _ = _
  rw [hword]
  rfl

/-- After the last option there is nothing left. -/
theorem Spells.getopt_nil {cur : Str} {words : List Str} (h : Spells opts cur words []) :
    getopt opts ⟨cur, words⟩ = none := by
  generalize hos : ([] : List (Char × Option Str)) = os at h
  induction h with
  | nil => rfl
  | word hc h ih =>
    rw [getopt_word hc]
    exact ih hos
  | flag => exact absurd hos (by simp)
  | attached => exact absurd hos (by simp)
  | separate => exact absurd hos (by simp)

/-- **A call returns the first option** and leaves the others. -/
theorem Spells.getopt_cons {cur : Str} {words : List Str} {o : Char × Option Str}
    {os : List (Char × Option Str)} (h : Spells opts cur words (o :: os)) :
    ∃ s, getopt opts ⟨cur, words⟩ = some (o.1, o.2, s) ∧ Spells opts s.cur s.words os := by
  generalize hos : o :: os = os' at h
  induction h with
  | nil => exact absurd hos (by simp)
  | word hc h ih =>
    rw [getopt_word hc]
    exact ih hos
  | @flag c cs words os' hc h =>
    obtain ⟨rfl, rfl⟩ := List.cons.inj hos
    exact ⟨⟨cs, words⟩, congrArg some (letter_flag hc cs words), h⟩
  | @attached c arg words os' hc harg h =>
    obtain ⟨rfl, rfl⟩ := List.cons.inj hos
    exact ⟨⟨[], words⟩, congrArg some (letter_attached hc harg words), h⟩
  | @separate c arg words os' hc h =>
    obtain ⟨rfl, rfl⟩ := List.cons.inj hos
    exact ⟨⟨[], words⟩, congrArg some (letter_separate hc arg words), h⟩

end Getopt
