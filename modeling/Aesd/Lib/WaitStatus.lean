/-
# Wait statuses

How a process ends, and the number `waitpid` stores for it: an exit status in the second byte, or a
signal in the low seven bits with the core flag above them.  The macros of `sys/wait.h` read the
number back.

A child that is to become a program, and calls `exit` where it cannot, ends normally either way: the
test for a normal end says nothing about the program (`wifexited_endOf_iff`).  What tells that the
program ran and exited with 0 is that the whole status is 0, provided the code of the failed attempt
is not 0 in its low byte (`status_endOf_eq_zero_iff`).
-/
import Mathlib.Data.Nat.Basic

namespace WaitStatus

/-! ## 1. How a process ends -/

/-- A signal that ends a process.  The numbers 0 and 127 would read as an exit and as a stop. -/
structure Signal where
  num : ℕ
  pos : 0 < num
  lt : num < 127
deriving DecidableEq

inductive Ending
  | exited (status : UInt8)
  | killed (signal : Signal) (core : Bool)
deriving DecidableEq

/-- `exit`: the parent sees the low byte of the code. -/
def exit (code : ℤ) : Ending := .exited (UInt8.ofInt code)

/-- The end of a child that becomes a program, or calls `exit` where it cannot. -/
def endOf (program : Option Ending) (code : ℤ) : Ending := program.getD (exit code)

/-! ## 2. The status and the macros that read it -/

/-- The status of an end. -/
def Ending.status : Ending → ℕ
  | .exited n => n.toNat <<< 8
  | .killed signal core => signal.num ||| if core then 0x80 else 0

/-- `WTERMSIG` -/
def wtermsig (status : ℕ) : ℕ := status &&& 0x7f

/-- `WIFEXITED` -/
def wifexited (status : ℕ) : Bool := wtermsig status = 0

/-- `WEXITSTATUS` -/
def wexitstatus (status : ℕ) : ℕ := (status &&& 0xff00) >>> 8

@[simp] theorem wtermsig_exited (n : UInt8) : wtermsig (Ending.exited n).status = 0 := by
  have h7 : (0x7f : ℕ) = 2 ^ 7 - 1 := rfl
  rw [Ending.status, wtermsig, h7, Nat.and_two_pow_sub_one_eq_mod, Nat.shiftLeft_eq]
  omega

@[simp] theorem wtermsig_killed (signal : Signal) (core : Bool) :
    wtermsig (Ending.killed signal core).status = signal.num := by
  have h7 : (0x7f : ℕ) = 2 ^ 7 - 1 := rfl
  have hlow : signal.num &&& 0x7f = signal.num := by
    rw [h7, Nat.and_two_pow_sub_one_eq_mod]
    exact Nat.mod_eq_of_lt (Nat.lt_trans signal.lt (by decide))
  rw [Ending.status, wtermsig, Nat.and_or_distrib_right, hlow]
  cases core with
  | false => exact Nat.or_zero _
  | true => exact Nat.or_zero _

@[simp] theorem wexitstatus_exited (n : UInt8) :
    wexitstatus (Ending.exited n).status = n.toNat := by
  have h8 : (0xff : ℕ) = 2 ^ 8 - 1 := rfl
  have hhigh : 0xff00 >>> 8 = 0xff := rfl
  rw [Ending.status, wexitstatus, Nat.shiftRight_and_distrib, Nat.shiftLeft_shiftRight, hhigh, h8,
    Nat.and_two_pow_sub_one_eq_mod]
  exact Nat.mod_eq_of_lt n.toNat_lt

/-- `WIFEXITED` tells exits from kills. -/
theorem wifexited_status_iff {e : Ending} : wifexited e.status = true ↔ ∃ n, e = .exited n := by
  cases e with
  | exited n => exact iff_of_true (by rw [wifexited, wtermsig_exited]; rfl) ⟨n, rfl⟩
  | killed signal core =>
    refine iff_of_false (fun h => ?_) nofun
    rw [wifexited, wtermsig_killed, decide_eq_true_eq] at h
    exact absurd h (Nat.ne_of_gt signal.pos)

/-- The status is 0 for an exit with 0 and for nothing else. -/
theorem status_eq_zero_iff {e : Ending} : e.status = 0 ↔ e = .exited 0 := by
  constructor
  · intro h
    have hexit : wifexited e.status = true := by rw [h]; rfl
    obtain ⟨n, rfl⟩ := wifexited_status_iff.mp hexit
    have hn : n.toNat = 0 := by rw [← wexitstatus_exited, h]; rfl
    rw [UInt8.toNat_inj.mp (hn.trans UInt8.toNat_zero.symm)]
  · rintro rfl
    rfl

/-! ## 3. A child that is to become a program -/

/-- **A normal end says nothing about the program**: the child ends normally exactly if the program
does or there was no program. -/
theorem wifexited_endOf_iff {program : Option Ending} {code : ℤ} :
    wifexited (endOf program code).status = true ↔ ∀ e, program = some e → ∃ n, e = .exited n := by
  rw [wifexited_status_iff]
  cases program with
  | none => exact iff_of_true ⟨_, rfl⟩ nofun
  | some e => exact ⟨fun h e' he => Option.some.inj he ▸ h, fun h => h e rfl⟩

/-- **A status of 0 says that the program ran and exited with 0.** -/
theorem status_endOf_eq_zero_iff {program : Option Ending} {code : ℤ}
    (h : UInt8.ofInt code ≠ 0) : (endOf program code).status = 0 ↔ program = some (.exited 0) := by
  rw [status_eq_zero_iff]
  cases program with
  | none => exact iff_of_false (fun he => h (Ending.exited.inj he)) nofun
  | some e => exact ⟨congrArg some, Option.some.inj⟩

end WaitStatus
