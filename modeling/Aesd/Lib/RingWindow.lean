/-
# The window of a ring of slots

A ring of `n` slots is read through a window: the `count` slots that start at index `out` and
wrap at `n`.  A ring that keeps the most recent `n` values is maintained by two moves.

* While the window is not full, a value is stored in the slot just past it and the window
  grows by one (`window_store_next`).
* Once it is full, the slot just past it IS its first slot: the value overwrites the oldest one
  and the window moves on by one (`window_store_oldest`).

Everything here is about an arbitrary capacity and an arbitrary type of values.
-/
import Mathlib.Data.List.Basic
import Mathlib.Data.ZMod.Defs
import Mathlib.Logic.Function.Basic
import Mathlib.Data.List.FinRange
import Mathlib.Algebra.Order.BigOperators.Group.List
import Mathlib.Algebra.Order.Group.Nat

namespace RingWindow

variable {α : Type*} {n : ℕ} [NeZero n]

/-- The slot `i` places after index `out`. -/
def slotAt (out : Fin n) (i : ℕ) : Fin n := Fin.ofNat n (out.val + i)

/-- The `count` slots from `out` on, oldest first. -/
def window (slots : Fin n → α) (out : Fin n) (count : ℕ) : List α :=
  (List.range count).map fun i => slots (slotAt out i)

/-! ## 1. Slots -/

theorem slotAt_zero (out : Fin n) : slotAt out 0 = out := by
  apply Fin.ext
  simp [slotAt, Fin.ofNat, Nat.mod_eq_of_lt out.isLt]

/-- Going `n` places forward comes back to the same slot. -/
theorem slotAt_self (out : Fin n) : slotAt out n = out := by
  apply Fin.ext
  simp [slotAt, Fin.ofNat, Nat.mod_eq_of_lt out.isLt]

theorem slotAt_slotAt (out : Fin n) (i j : ℕ) : slotAt (slotAt out i) j = slotAt out (i + j) := by
  apply Fin.ext
  simp [slotAt, Fin.ofNat, Nat.add_assoc]

/-- Places less than one revolution apart are different slots. -/
theorem slotAt_inj {out : Fin n} {i j : ℕ} (hi : i < n) (hj : j < n)
    (h : slotAt out i = slotAt out j) : i = j := by
  have hval : (out.val + i) % n = (out.val + j) % n := by
    simpa [slotAt, Fin.ofNat] using congrArg Fin.val h
  have hmod : i ≡ j [MOD n] := Nat.ModEq.add_left_cancel' out.val hval
  rwa [Nat.ModEq, Nat.mod_eq_of_lt hi, Nat.mod_eq_of_lt hj] at hmod

/-- Every slot is at some place of the first revolution. -/
theorem exists_slotAt (out j : Fin n) : ∃ i < n, slotAt out i = j := by
  have hn : 0 < n := Nat.pos_of_ne_zero (NeZero.ne n)
  refine ⟨(j.val + (n - out.val)) % n, Nat.mod_lt _ hn, ?_⟩
  apply Fin.ext
  have hlt := out.isLt
  have hsum : out.val + (j.val + (n - out.val)) = j.val + n := by omega
  simp only [slotAt, Fin.ofNat, Nat.add_mod_mod, hsum, Nat.add_mod_right]
  exact Nat.mod_eq_of_lt j.isLt

/-! ## 2. Reading the window -/

@[simp] theorem length_window (slots : Fin n → α) (out : Fin n) (count : ℕ) :
    (window slots out count).length = count := by
  simp [window]

@[simp] theorem window_zero (slots : Fin n → α) (out : Fin n) : window slots out 0 = [] := rfl

theorem window_succ (slots : Fin n → α) (out : Fin n) (count : ℕ) :
    window slots out (count + 1) = window slots out count ++ [slots (slotAt out count)] := by
  simp [window, List.range_succ]

theorem getElem?_window (slots : Fin n → α) (out : Fin n) {count k : ℕ} (hk : k < count) :
    (window slots out count)[k]? = some (slots (slotAt out k)) := by
  simp [window, hk]

theorem take_window (slots : Fin n → α) (out : Fin n) {count k : ℕ} (hk : k ≤ count) :
    (window slots out count).take k = window slots out k := by
  rw [window, ← List.map_take, List.take_range, Nat.min_eq_left hk]
  rfl

theorem map_window {β : Type*} (f : α → β) (slots : Fin n → α) (out : Fin n) (count : ℕ) :
    (window slots out count).map f = window (fun i => f (slots i)) out count := by
  simp [window]

/-- The window without its oldest value starts one slot later. -/
theorem window_eq_cons (slots : Fin n → α) (out : Fin n) (count : ℕ) :
    window slots out (count + 1) = slots out :: window slots (slotAt out 1) count := by
  simp only [window, List.range_succ_eq_map, List.map_cons, List.map_map, slotAt_zero]
  congr 1
  apply List.map_congr_left
  intro i _
  simp only [Function.comp_apply, slotAt_slotAt, Nat.succ_eq_add_one, Nat.add_comm 1 i]

theorem mem_window {slots : Fin n → α} {out : Fin n} {count : ℕ} {a : α} :
    a ∈ window slots out count ↔ ∃ i < count, slots (slotAt out i) = a := by
  simp [window]

/-- The slots of a window of at most one revolution are distinct. -/
theorem nodup_slots (out : Fin n) {count : ℕ} (h : count ≤ n) :
    ((List.range count).map (slotAt out)).Nodup := by
  refine List.Nodup.map_on ?_ List.nodup_range
  intro i hi j hj heq
  exact slotAt_inj (lt_of_lt_of_le (List.mem_range.mp hi) h)
    (lt_of_lt_of_le (List.mem_range.mp hj) h) heq

/-- A window adds up to at most the whole ring. -/
theorem sum_window_le (f : Fin n → ℕ) (out : Fin n) {count : ℕ} (h : count ≤ n) :
    (window f out count).sum ≤ ((List.finRange n).map f).sum := by
  have hsub : ((List.range count).map (slotAt out)).Subperm (List.finRange n) :=
    List.subperm_of_subset (nodup_slots out h) fun i _ => List.mem_finRange i
  obtain ⟨l, hl, hsl⟩ := hsub
  have h1 : window f out count = ((List.range count).map (slotAt out)).map f := by
    rw [window, List.map_map]
    rfl
  rw [h1, ← (hl.map f).sum_eq]
  exact (hsl.map f).sum_le_sum fun _ _ => Nat.zero_le _

/-! ## 3. Storing a value -/

/-- A store outside the window does not show in it. -/
theorem window_update_of_ne {slots : Fin n → α} {out j : Fin n} {count : ℕ} (a : α)
    (h : ∀ i < count, slotAt out i ≠ j) :
    window (Function.update slots j a) out count = window slots out count := by
  apply List.map_congr_left
  intro i hi
  exact Function.update_of_ne (h i (List.mem_range.mp hi)) a slots

/-- **Storing past a window that is not full appends.** -/
theorem window_store_next (slots : Fin n → α) (out : Fin n) {count : ℕ} (h : count < n) (a : α) :
    window (Function.update slots (slotAt out count) a) out (count + 1) =
      window slots out count ++ [a] := by
  rw [window_succ, window_update_of_ne, Function.update_self]
  intro i hi heq
  have := slotAt_inj (by omega) h heq
  omega

/-- **Storing past a full window drops the oldest value and appends.** -/
theorem window_store_oldest (slots : Fin n → α) (out : Fin n) (a : α) :
    window (Function.update slots out a) (slotAt out 1) n = (window slots out n).tail ++ [a] := by
  obtain ⟨m, rfl⟩ : ∃ m, n = m + 1 := ⟨n - 1, (Nat.succ_pred (NeZero.ne n)).symm⟩
  rw [window_succ, slotAt_slotAt, Nat.add_comm 1 m, slotAt_self, Function.update_self,
    window_eq_cons, List.tail_cons, window_update_of_ne]
  intro i hi heq
  rw [slotAt_slotAt] at heq
  have h0 : slotAt out (1 + i) = slotAt out 0 := by rw [heq, slotAt_zero]
  have := slotAt_inj (by omega) (by omega) h0
  omega

end RingWindow
