/-!
# Bytes — a byte-addressed memory and the 32-bit words stored in it

A memory is a byte for every address.  A word is stored little-endian over four bytes; a store is seen by a load at the
same address (`read32_write32`) and by no load it does not overlap (`read32_write32_of_apart`).
-/
namespace Pico
namespace Lib

/-- A byte at every address. -/
abbrev Mem := Nat → UInt8

namespace Mem

def read32 (m : Mem) (a : Nat) : Nat :=
  (m a).toNat + 256 * ((m (a + 1)).toNat + 256 * ((m (a + 2)).toNat + 256 * (m (a + 3)).toNat))

/-- Store the low 32 bits of `v`. -/
def write32 (m : Mem) (a v : Nat) : Mem := fun x =>
  if x = a then UInt8.ofNat v
  else if x = a + 1 then UInt8.ofNat (v / 256)
  else if x = a + 2 then UInt8.ofNat (v / 65536)
  else if x = a + 3 then UInt8.ofNat (v / 16777216)
  else m x

def write8 (m : Mem) (a : Nat) (v : UInt8) : Mem := fun x => if x = a then v else m x

/-- `memset`: `n` bytes from `a`. -/
def fill (m : Mem) (a n : Nat) (v : UInt8) : Mem := fun x => if a ≤ x ∧ x < a + n then v else m x

/-- The `n` bytes from `a`. -/
def bytes (m : Mem) (a n : Nat) : List UInt8 := (List.range n).map fun i => m (a + i)

/-- `memcpy` of the bytes of `l` to `a`. -/
def copy (m : Mem) (a : Nat) (l : List UInt8) : Mem := fun x =>
  if a ≤ x ∧ x < a + l.length then l.getD (x - a) 0 else m x

theorem read32_congr {m m' : Mem} {a : Nat} (h : ∀ x, a ≤ x → x < a + 4 → m' x = m x) :
    m'.read32 a = m.read32 a := by
  unfold read32
  rw [h a (by omega) (by omega), h (a + 1) (by omega) (by omega), h (a + 2) (by omega) (by omega),
    h (a + 3) (by omega) (by omega)]

theorem write32_of_apart (m : Mem) (a v : Nat) {x : Nat} (h : x < a ∨ a + 4 ≤ x) : m.write32 a v x = m x := by
  unfold write32
  rw [if_neg (by omega), if_neg (by omega), if_neg (by omega), if_neg (by omega)]

theorem read32_write32 (m : Mem) (a v : Nat) : (m.write32 a v).read32 a = v % 4294967296 := by
  have b0 : m.write32 a v a = UInt8.ofNat v := by simp [write32]
  have b1 : m.write32 a v (a + 1) = UInt8.ofNat (v / 256) := by simp [write32]
  have b2 : m.write32 a v (a + 2) = UInt8.ofNat (v / 65536) := by simp [write32]
  have b3 : m.write32 a v (a + 3) = UInt8.ofNat (v / 16777216) := by simp [write32]
  unfold read32
  rw [b0, b1, b2, b3]
  simp only [UInt8.toNat_ofNat']
  omega

theorem read32_write32_of_apart (m : Mem) {a b : Nat} (v : Nat) (h : a + 4 ≤ b ∨ b + 4 ≤ a) :
    (m.write32 a v).read32 b = m.read32 b :=
  read32_congr (fun x h1 h2 => write32_of_apart m a v (by omega))

theorem read32_write8_of_apart (m : Mem) {a b : Nat} (v : UInt8) (h : a < b ∨ b + 4 ≤ a) :
    (m.write8 a v).read32 b = m.read32 b :=
  read32_congr (fun x h1 h2 => by simp only [write8]; rw [if_neg (by omega)])

theorem read32_fill_of_apart (m : Mem) {a n b : Nat} (v : UInt8) (h : a + n ≤ b ∨ b + 4 ≤ a) :
    (m.fill a n v).read32 b = m.read32 b :=
  read32_congr (fun x h1 h2 => by simp only [fill]; rw [if_neg (by omega)])

@[simp] theorem bytes_length (m : Mem) (a n : Nat) : (m.bytes a n).length = n := by simp [bytes]

theorem copy_of_apart (m : Mem) {a x : Nat} {l : List UInt8} (h : x < a ∨ a + l.length ≤ x) : m.copy a l x = m x := by
  unfold copy
  rw [if_neg (by omega)]

theorem copy_of_lt (m : Mem) (a : Nat) {i : Nat} {l : List UInt8} (h : i < l.length) :
    m.copy a l (a + i) = l.getD i 0 := by
  unfold copy
  rw [if_pos (by omega), Nat.add_sub_cancel_left]

/-- **A block copied** reads as the block it was copied from. -/
theorem copy_bytes_of_lt (m m' : Mem) (a b : Nat) {i n : Nat} (h : i < n) :
    m.copy a (m'.bytes b n) (a + i) = m' (b + i) := by
  rw [copy_of_lt m a (by rwa [bytes_length]), bytes, List.getD_eq_getElem?_getD, List.getElem?_map,
    List.getElem?_range h]
  rfl

/-- The bytes that were copied are read back. -/
theorem bytes_copy (m : Mem) (a : Nat) (l : List UInt8) : (m.copy a l).bytes a l.length = l := by
  refine List.ext_getElem (by rw [bytes_length]) fun i h₁ h₂ => ?_
  have hi : ((m.copy a l).bytes a l.length)[i] = m.copy a l (a + i) := by simp [bytes]
  rw [hi, copy_of_lt m a h₂, List.getD_eq_getElem?_getD, List.getElem?_eq_getElem h₂]
  rfl

theorem bytes_congr {m m' : Mem} {a n : Nat} (h : ∀ x, a ≤ x → x < a + n → m' x = m x) : m'.bytes a n = m.bytes a n :=
  List.map_congr_left fun i hi => h (a + i) (Nat.le_add_right a i) (Nat.add_lt_add_left (List.mem_range.1 hi) a)

theorem bytes_add (m : Mem) (a n k : Nat) : m.bytes a (n + k) = m.bytes a n ++ m.bytes (a + n) k := by
  rw [bytes, List.range_add, List.map_append, List.map_map]
  refine congrArg _ (List.map_congr_left fun i _ => ?_)
  rw [Function.comp_apply, Nat.add_assoc]

/-- **Equal bytes at two places.** -/
theorem bytes_eq_bytes {m m' : Mem} {a b n : Nat} (h : ∀ i, i < n → m (a + i) = m' (b + i)) :
    m.bytes a n = m'.bytes b n :=
  List.map_congr_left fun i hi => h i (List.mem_range.1 hi)

theorem take_bytes (m : Mem) (a : Nat) {n k : Nat} (h : k ≤ n) : (m.bytes a n).take k = m.bytes a k := by
  obtain ⟨j, rfl⟩ := Nat.exists_eq_add_of_le h
  rw [bytes_add, List.take_left' (bytes_length m a k)]

theorem drop_bytes (m : Mem) (a n k : Nat) : (m.bytes a n).drop k = m.bytes (a + k) (n - k) := by
  rcases Nat.le_total k n with h | h
  · obtain ⟨j, rfl⟩ := Nat.exists_eq_add_of_le h
    rw [bytes_add, List.drop_left' (bytes_length m a k), Nat.add_sub_cancel_left]
  · rw [List.drop_eq_nil_of_le (by rwa [bytes_length]), Nat.sub_eq_zero_of_le h]
    rfl

/-- **Copies one behind the other are one copy.** -/
theorem copy_copy (m : Mem) (a : Nat) (l l' : List UInt8) : (m.copy a l).copy (a + l.length) l' = m.copy a (l ++ l') := by
  funext x
  by_cases h : a + l.length ≤ x ∧ x < a + l.length + l'.length
  · have hx : x = a + (x - a) := by omega
    rw [hx, copy_of_lt m a (by rw [List.length_append]; omega)]
    have hy : a + (x - a) = a + l.length + (x - a - l.length) := by omega
    rw [hy, copy_of_lt _ _ (by omega), List.getD_eq_getElem?_getD, List.getD_eq_getElem?_getD,
      List.getElem?_append_right (by omega)]
  · rw [copy_of_apart _ (by omega)]
    by_cases h' : a ≤ x ∧ x < a + l.length
    · have hx : x = a + (x - a) := by omega
      rw [hx, copy_of_lt m a (by omega), copy_of_lt m a (by rw [List.length_append]; omega), List.getD_eq_getElem?_getD,
        List.getD_eq_getElem?_getD, List.getElem?_append_left (by omega)]
    · rw [copy_of_apart m (by omega), copy_of_apart m (by rw [List.length_append]; omega)]

end Mem
end Lib
end Pico
