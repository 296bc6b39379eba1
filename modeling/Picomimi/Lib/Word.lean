/-!
# Word — unsigned machine arithmetic on natural numbers

A `u64` is a natural number below `2 ^ 64`, a `u32` one below `2 ^ 32`; sums and differences wrap as the machine's do.  `alignUp` and `alignDown` are
the usual masks by a power of two, written as the division they are: `x & ~(a - 1)` is `x / a * a`.
-/
namespace Pico
namespace Lib

/-- `2 ^ 64`, the modulus of the machine's words. -/
def word64 : Nat := 18446744073709551616

/-- `2 ^ 32`. -/
def word32 : Nat := 4294967296

def add32 (a b : Nat) : Nat := (a + b) % word32

def sub32 (a b : Nat) : Nat := (a + (word32 - b)) % word32

def add64 (a b : Nat) : Nat := (a + b) % word64

def sub64 (a b : Nat) : Nat := (a + (word64 - b)) % word64

/-- An `int` where a sum has left its range: it wraps at `2 ^ 32`. -/
def cInt (x : Int) : Int := (x + 2147483648) % 4294967296 - 2147483648

/-- Round up to a multiple of `a`, the sum wrapping first. -/
def alignUp (x a : Nat) : Nat := add64 x (a - 1) / a * a

def alignDown (x a : Nat) : Nat := x / a * a

theorem add64_lt (a b : Nat) : add64 a b < word64 := Nat.mod_lt _ (by decide)

theorem sub64_lt (a b : Nat) : sub64 a b < word64 := Nat.mod_lt _ (by decide)

theorem add64_of_lt {a b : Nat} (h : a + b < word64) : add64 a b = a + b := Nat.mod_eq_of_lt h

theorem sub64_of_le {a b : Nat} (h : b ≤ a) (ha : a < word64) : sub64 a b = a - b := by
  have : a + (word64 - b) = a - b + word64 := by omega
  rw [sub64, this, Nat.add_mod_right, Nat.mod_eq_of_lt (by omega)]

/-- Adding to a counter that has wrapped. -/
theorem add64_mod (n a : Nat) : add64 (n % word64) a = (n + a) % word64 := Nat.mod_add_mod n word64 a

/-- Taking back from a counter that has wrapped what was added to it. -/
theorem sub64_mod {n a : Nat} (h : a ≤ n) (ha : a < word64) : sub64 (n % word64) a = (n - a) % word64 := by
  have : n + (word64 - a) = n - a + word64 := by omega
  rw [sub64, Nat.mod_add_mod, this, Nat.add_mod_right]

/-- `2 ^ 64` is a multiple of every page size, so that a sum of page boundaries is one even where it wraps. -/
theorem dvd_add64 {p a b : Nat} (hp : p ∣ word64) (ha : p ∣ a) (hb : p ∣ b) : p ∣ add64 a b :=
  (Nat.dvd_mod_iff hp).2 (Nat.dvd_add ha hb)

theorem add32_of_lt {a b : Nat} (h : a + b < word32) : add32 a b = a + b := Nat.mod_eq_of_lt h

theorem sub32_of_le {a b : Nat} (h : b ≤ a) (ha : a < word32) : sub32 a b = a - b := by
  have : a + (word32 - b) = a - b + word32 := by omega
  rw [sub32, this, Nat.add_mod_right, Nat.mod_eq_of_lt (by omega)]

theorem sub64_add64 {r n : Nat} (hr : r < word64) (hn : n < word64) : sub64 (add64 r n) r = n := by
  unfold sub64 add64
  rw [Nat.mod_add_mod]
  have : r + n + (word64 - r) = n + word64 := by omega
  rw [this, Nat.add_mod_right, Nat.mod_eq_of_lt hn]

theorem alignDown_le (x a : Nat) : alignDown x a ≤ x := Nat.div_mul_le_self x a

theorem dvd_alignDown (x a : Nat) : a ∣ alignDown x a := ⟨x / a, by rw [alignDown, Nat.mul_comm]⟩

theorem dvd_alignUp (x a : Nat) : a ∣ alignUp x a := ⟨add64 x (a - 1) / a, by rw [alignUp, Nat.mul_comm]⟩

/-- **Rounding up without wrapping** loses nothing and adds less than `a`. -/
theorem alignUp_bounds {x a : Nat} (ha : 0 < a) (h : x + (a - 1) < word64) :
    x ≤ alignUp x a ∧ alignUp x a < x + a := by
  have hd := Nat.div_add_mod (x + (a - 1)) a
  have hm := Nat.mod_lt (x + (a - 1)) ha
  rw [alignUp, add64_of_lt h, Nat.mul_comm]
  omega

end Lib
end Pico
