import Mathlib.Algebra.Order.Ring.Nat
import Mathlib.Tactic.Common
import Mathlib.Tactic.Ring

/-!
# Bytes in memory

A memory gives a byte for every address. Numbers are stored with the lowest byte first.
-/

namespace Infos.Bytes

abbrev Memory := ℕ → UInt8

/-- The `n` bytes from `a` on become `f 0`, `f 1` and so on. -/
def write (m : Memory) (a n : ℕ) (f : ℕ → UInt8) : Memory := fun x =>
  if a ≤ x ∧ x < a + n then f (x - a) else m x

/-- The number in the `n` bytes from `a` on. -/
def load (m : Memory) (a : ℕ) : ℕ → ℕ
  | 0 => 0
  | n + 1 => (m a).toNat + 256 * load m (a + 1) n

def store (m : Memory) (a n v : ℕ) : Memory := write m a n fun i => UInt8.ofNat (v / 256 ^ i)

def zero (m : Memory) (a n : ℕ) : Memory := write m a n fun _ => 0

def load64 (m : Memory) (a : ℕ) : UInt64 := UInt64.ofNat (load m a 8)

def store64 (m : Memory) (a : ℕ) (v : UInt64) : Memory := store m a 8 v.toNat

variable {m m' : Memory} {a b n k : ℕ}

/-! ## What a write changes -/

theorem write_inside (f : ℕ → UInt8) {x : ℕ} (hx : a ≤ x) (hlt : x < a + n) :
    write m a n f x = f (x - a) := if_pos ⟨hx, hlt⟩

theorem write_outside (f : ℕ → UInt8) {x : ℕ} (hx : x < a ∨ a + n ≤ x) : write m a n f x = m x :=
  if_neg (by omega)

theorem load_congr (h : ∀ x, a ≤ x → x < a + n → m x = m' x) : load m a n = load m' a n := by
  induction n generalizing a with
  | zero => rfl
  | succ n ih =>
    rw [load, load, h a le_rfl (by omega), ih fun x hx hlt => h x (by omega) (by omega)]

theorem load_lt (m : Memory) (a n : ℕ) : load m a n < 256 ^ n := by
  induction n generalizing a with
  | zero => exact Nat.one_pos
  | succ n ih =>
    have hbyte := (m a).toNat_lt
    have hrest := ih (a + 1)
    rw [pow_succ]
    unfold load
    omega

theorem load_write_apart (f : ℕ → UInt8) (h : a + k ≤ b ∨ b + n ≤ a) :
    load (write m b n f) a k = load m a k :=
  load_congr fun _ _ _ => write_outside f (by omega)

/-! ## Numbers -/

theorem load_store (m : Memory) (a : ℕ) {v : ℕ} (hv : v < 256 ^ n) :
    load (store m a n v) a n = v := by
  induction n generalizing a m v with
  | zero =>
    rw [load]
    omega
  | succ n ih =>
    have htail : load (store m a (n + 1) v) (a + 1) n = load (store m (a + 1) n (v / 256)) (a + 1) n := by
      refine load_congr fun x hx hlt => ?_
      obtain ⟨i, rfl⟩ : ∃ i, x = a + 1 + i := ⟨x - (a + 1), by omega⟩
      rw [store, store, write_inside _ (by omega) (by omega), write_inside _ hx hlt,
        show a + 1 + i - a = i + 1 by omega, show a + 1 + i - (a + 1) = i by omega, pow_succ',
        Nat.div_div_eq_div_mul]
    have hhead : store m a (n + 1) v a = UInt8.ofNat v := by
      rw [store, write_inside _ le_rfl (by omega), Nat.sub_self, pow_zero, Nat.div_one]
    have hlt : v / 256 < 256 ^ n := by
      rw [pow_succ] at hv
      omega
    rw [load, htail, hhead, ih _ _ hlt, UInt8.toNat_ofNat']
    omega

theorem load_zero (h : b ≤ a) (h' : a + k ≤ b + n) : load (zero m b n) a k = 0 := by
  induction k generalizing a with
  | zero => rfl
  | succ k ih =>
    rw [load, ih (by omega) (by omega), zero, write_inside _ h (by omega)]
    rfl

theorem load64_store64 (m : Memory) (a : ℕ) (v : UInt64) : load64 (store64 m a v) a = v := by
  rw [load64, store64, load_store m a v.toNat_lt]
  exact UInt64.ofNat_toNat

theorem store64_outside (v : UInt64) {x : ℕ} (hx : x < a ∨ a + 8 ≤ x) : store64 m a v x = m x := by
  unfold store64 store
  exact write_outside _ hx

theorem load64_write_apart (f : ℕ → UInt8) (h : a + 8 ≤ b ∨ b + n ≤ a) :
    load64 (write m b n f) a = load64 m a := by
  rw [load64, load_write_apart f h, load64]

theorem load64_store64_apart (v : UInt64) (h : a + 8 ≤ b ∨ b + 8 ≤ a) :
    load64 (store64 m b v) a = load64 m a := load64_write_apart _ h

theorem load64_zero (h : b ≤ a) (h' : a + 8 ≤ b + n) : load64 (zero m b n) a = 0 := by
  rw [load64, load_zero h h']
  rfl

end Infos.Bytes
