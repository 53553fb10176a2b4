/-
# Bringing an interface up and down

`tun_set_if` and `set_flag` of `src/c/tap/tun_dev.c`: the flags of an interface are read, a
flag is added, and the result is set.  `tun_set_if` uses this in both directions, but `set_flag`
can only add.
-/
import Mathlib.Data.BitVec
import Mathlib.Logic.Function.Basic

namespace TunDev

/-! ## The source -/

/-- `IFF_UP`. -/
def iffUp : BitVec 16 := 0x1

/-- `IFF_RUNNING`. -/
def iffRunning : BitVec 16 := 0x40

/-- The flags of the interfaces, by the name in `ifr_name`. -/
abbrev Interfaces := List UInt8 → BitVec 16

/-- `strncpy(ifr.ifr_name, ifname, IFNAMSIZ)`. -/
def ifrName (ifname : List UInt8) : List UInt8 := ifname.take 16

/-- What the kernel answers: no socket, no flags, flags not set, or flags set.  Then it decides
itself about `IFF_RUNNING`. -/
inductive Answer
  | noSocket
  | noGet
  | noSet
  | done (running : Bool)
  deriving DecidableEq

/-- The flags after `SIOCSIFFLAGS` with `flags`. -/
def setFlags (running : Bool) (flags : BitVec 16) : BitVec 16 :=
  if running then flags ||| iffRunning else flags &&& ~~~iffRunning

/-- `set_flag`. -/
def setFlag (k : Interfaces) (ifname : List UInt8) (flag : BitVec 16) : Answer → ℤ × Interfaces
  | .done running =>
    (0, Function.update k (ifrName ifname) (setFlags running (k (ifrName ifname) ||| flag)))
  | .noSet => (-65, k)
  | _ => (-58, k)

/-- `tun_set_if`. -/
def tunSetIf (k : Interfaces) (dev : List UInt8) (up : ℤ) (a : Answer) : ℤ × Interfaces :=
  let flags := if up ≠ 0 then iffUp ||| iffRunning else iffUp
  match a with
  | .noSocket => (-1, k)
  | _ => setFlag k dev flags a

/-! ## One call -/

/-- The call has set the flags. -/
def Answer.Succeeds : Answer → Prop
  | .done _ => True
  | _ => False

/-- The interface is up. -/
def IsUp (k : Interfaces) (dev : List UInt8) : Prop := k (ifrName dev) &&& iffUp = iffUp

/-- Its flags other than `IFF_UP` and `IFF_RUNNING`. -/
def others (k : Interfaces) (dev : List UInt8) : BitVec 16 :=
  k (ifrName dev) &&& ~~~(iffUp ||| iffRunning)

theorem and_setFlags {m : BitVec 16} (hm : iffRunning &&& m = 0#16) (running : Bool)
    (flags : BitVec 16) : setFlags running flags &&& m = flags &&& m := by
  cases running with
  | true =>
    show (flags ||| iffRunning) &&& m = _
    rw [BitVec.and_or_distrib_right, hm, BitVec.or_zero]
  | false =>
    have hkeep : ~~~iffRunning &&& m = m := by
      have h := BitVec.and_or_distrib_right (x := ~~~iffRunning) (y := iffRunning) (z := m)
      rw [BitVec.not_or_self, BitVec.allOnes_and, hm, BitVec.or_zero] at h
      exact h.symm
    show (flags &&& ~~~iffRunning) &&& m = _
    rw [BitVec.and_assoc, hkeep]

/-- A call that fails says so and changes nothing. -/
theorem tunSetIf_of_not_succeeds (k : Interfaces) (dev : List UInt8) (up : ℤ) {a : Answer}
    (h : ¬ a.Succeeds) : (tunSetIf k dev up a).1 < 0 ∧ (tunSetIf k dev up a).2 = k := by
  cases a with
  | noSocket => exact ⟨show (-1 : ℤ) < 0 by omega, rfl⟩
  | noGet => exact ⟨show (-58 : ℤ) < 0 by omega, rfl⟩
  | noSet => exact ⟨show (-65 : ℤ) < 0 by omega, rfl⟩
  | done running => exact absurd trivial h

/-- A call changes no flag but the two. -/
theorem others_tunSetIf (k : Interfaces) (dev : List UInt8) (up : ℤ) (a : Answer) :
    others (tunSetIf k dev up a).2 dev = others k dev := by
  cases a with
  | noSocket => rfl
  | noGet => rfl
  | noSet => rfl
  | done running =>
    have hflags : ∀ f : BitVec 16, f &&& ~~~(iffUp ||| iffRunning) = 0#16 →
        setFlags running (k (ifrName dev) ||| f) &&& ~~~(iffUp ||| iffRunning) =
          others k dev := by
      intro f hf
      rw [and_setFlags (by decide), BitVec.and_or_distrib_right, hf, BitVec.or_zero, others]
    show Function.update k (ifrName dev) _ (ifrName dev) &&& _ = _
    rw [Function.update_self]
    apply hflags
    split_ifs <;> decide

/-- **After a call that succeeds the interface is up**, whatever was asked for. -/
theorem isUp_tunSetIf (k : Interfaces) (dev : List UInt8) (up : ℤ) {a : Answer}
    (h : a.Succeeds) : IsUp (tunSetIf k dev up a).2 dev := by
  cases a with
  | noSocket => exact absurd h id
  | noGet => exact absurd h id
  | noSet => exact absurd h id
  | done running =>
    show Function.update k (ifrName dev) _ (ifrName dev) &&& iffUp = iffUp
    rw [Function.update_self, and_setFlags (by decide), BitVec.and_or_distrib_right]
    have hup : (if up ≠ 0 then iffUp ||| iffRunning else iffUp) &&& iffUp = iffUp := by
      split_ifs <;> decide
    rw [hup]
    ext i hi
    simp

/-! ## Sequences of calls -/

/-- A call of `tun_set_if` for an interface, and what the kernel answers. -/
structure Call where
  up : ℤ
  answer : Answer
  deriving DecidableEq

/-- The flags after some calls. -/
def after (k : Interfaces) (dev : List UInt8) (calls : List Call) : Interfaces :=
  calls.foldl (fun k c => (tunSetIf k dev c.up c.answer).2) k

theorem after_concat (k : Interfaces) (dev : List UInt8) (calls : List Call) (c : Call) :
    after k dev (calls ++ [c]) = (tunSetIf (after k dev calls) dev c.up c.answer).2 := by
  rw [after, List.foldl_append]
  rfl

theorem others_after (k : Interfaces) (dev : List UInt8) (calls : List Call) :
    others (after k dev calls) dev = others k dev := by
  induction calls generalizing k with
  | nil => rfl
  | cons c calls ih => exact (ih _).trans (others_tunSetIf k dev c.up c.answer)

/-- After the last of these calls the interface is as that one asked for, if it succeeded, and
as before the call otherwise. -/
structure AsAsked (k : Interfaces) (dev : List UInt8) (calls : List Call) (c : Call) : Prop where
  isUp_iff : c.answer.Succeeds → (IsUp (after k dev (calls ++ [c])) dev ↔ c.up ≠ 0)
  others_eq : others (after k dev (calls ++ [c])) dev = others k dev
  failed : ¬ c.answer.Succeeds →
    (tunSetIf (after k dev calls) dev c.up c.answer).1 < 0 ∧
      after k dev (calls ++ [c]) = after k dev calls

/-- A call does what it asked for if and only if it does not succeed in bringing the interface
down. -/
theorem asAsked_iff (k : Interfaces) (dev : List UInt8) (calls : List Call) (c : Call) :
    AsAsked k dev calls c ↔ (c.answer.Succeeds → c.up ≠ 0) := by
  constructor
  · intro h hc
    refine (h.isUp_iff hc).mp ?_
    rw [after_concat]
    exact isUp_tunSetIf _ dev c.up hc
  · intro h
    refine ⟨fun hc => iff_of_true ?_ (h hc), others_after k dev _, fun hc => ?_⟩
    · rw [after_concat]
      exact isUp_tunSetIf _ dev c.up hc
    · rw [after_concat]
      exact tunSetIf_of_not_succeeds _ dev c.up hc

/-- **All calls of a sequence do what they asked for** if and only if none of them succeeds in
bringing the interface down. -/
theorem calls_asAsked_iff (k : Interfaces) (dev : List UInt8) (calls : List Call) :
    (∀ pre c post, calls = pre ++ c :: post → AsAsked k dev pre c) ↔
      ∀ c ∈ calls, c.answer.Succeeds → c.up ≠ 0 := by
  constructor
  · intro h c hc
    obtain ⟨pre, post, hcalls⟩ := List.append_of_mem hc
    exact (asAsked_iff k dev pre c).mp (h pre c post hcalls)
  · rintro h pre c post rfl
    exact (asAsked_iff k dev pre c).mpr (h c (List.mem_append_right _ List.mem_cons_self))

/-- What `main` does: the interface goes up, and stays up. -/
theorem not_calls_asAsked :
    ¬ ∀ (k : Interfaces) (dev : List UInt8) (calls : List Call),
      ∀ pre c post, calls = pre ++ c :: post → AsAsked k dev pre c := by
  intro h
  have hdown := h (fun _ => 0) [110] _ [⟨1, .done true⟩] ⟨0, .done false⟩ [] rfl
  refine (hdown.isUp_iff trivial).mp ?_ rfl
  exact isUp_tunSetIf _ [110] 0 trivial

end TunDev
