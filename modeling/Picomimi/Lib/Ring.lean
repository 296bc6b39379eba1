import Mathlib.Data.List.Range
import Mathlib.Logic.Function.Basic
/-!
# Ring — a bounded queue in a circular buffer

The queue is the `len` cells from position `rd` on, counted around the end of the buffer; `wr` is the first cell after
them.  `Ring size rd wr len` is what the three positions keep, and `content` the queue they stand for: a store at `wr`
appends to it (`content_push`), a load at `rd` takes its first element (`content_pop`).
-/
namespace Pico
namespace Lib
namespace Ring

variable {α : Type} {data : Nat → α} {size rd wr len : Nat}

/-- The cells in use, oldest first. -/
def content (data : Nat → α) (size rd len : Nat) : List α := (List.range len).map fun i => data ((rd + i) % size)

/-- **The positions of a ring**: both inside the buffer, and as far apart as the queue is long. -/
structure Wf (size rd wr len : Nat) : Prop where
  rd_lt : rd < size
  wr_eq : wr = (rd + len) % size
  len_le : len ≤ size

theorem Wf.size_pos (h : Wf size rd wr len) : 0 < size := Nat.lt_of_le_of_lt (Nat.zero_le _) h.rd_lt

theorem Wf.wr_lt (h : Wf size rd wr len) : wr < size := by
  rw [h.wr_eq]
  exact Nat.mod_lt _ h.size_pos

theorem wf_zero (h : 0 < size) : Wf size 0 0 0 := ⟨h, (Nat.zero_mod size).symm, Nat.zero_le _⟩

theorem Wf.push (h : Wf size rd wr len) (hlen : len < size) : Wf size rd ((wr + 1) % size) (len + 1) := by
  refine ⟨h.rd_lt, ?_, hlen⟩
  rw [h.wr_eq, Nat.mod_add_mod, Nat.add_assoc]

theorem Wf.pop (h : Wf size rd wr (len + 1)) : Wf size ((rd + 1) % size) wr len := by
  refine ⟨Nat.mod_lt _ h.size_pos, ?_, Nat.le_of_succ_le h.len_le⟩
  rw [h.wr_eq, Nat.mod_add_mod, Nat.add_assoc, Nat.add_comm 1 len]

@[simp] theorem content_zero : content data size rd 0 = [] := rfl

@[simp] theorem length_content : (content data size rd len).length = len := by simp [content]

theorem content_succ : content data size rd (len + 1) = content data size rd len ++ [data ((rd + len) % size)] := by
  simp [content, List.range_succ]

/-- Two cells of a queue no longer than the buffer are different cells. -/
theorem cell_ne {i j : Nat} (hi : i < j) (hj : j < size) : (rd + i) % size ≠ (rd + j) % size := by
  intro h
  have hd : size ∣ rd + j - (rd + i) := Nat.dvd_of_mod_eq_zero (Nat.sub_mod_eq_zero_of_mod_eq h.symm)
  have := Nat.le_of_dvd (by omega) hd
  omega

theorem content_congr {data' : Nat → α} (h : ∀ i < len, data' ((rd + i) % size) = data ((rd + i) % size)) :
    content data' size rd len = content data size rd len := by
  unfold content
  exact List.map_congr_left fun i hi => h i (List.mem_range.1 hi)

/-- **A store at the write position appends.** -/
theorem content_push (h : Wf size rd wr len) (hlen : len < size) (b : α) :
    content (Function.update data wr b) size rd (len + 1) = content data size rd len ++ [b] := by
  rw [content_succ, ← h.wr_eq, Function.update_self]
  congr 1
  refine content_congr fun i hi => ?_
  rw [Function.update_of_ne]
  rw [h.wr_eq]
  exact cell_ne hi hlen

/-- **A load at the read position takes the oldest element.** -/
theorem content_pop (h : Wf size rd wr (len + 1)) :
    content data size rd (len + 1) = data rd :: content data size ((rd + 1) % size) len := by
  unfold content
  rw [List.range_succ_eq_map, List.map_cons, List.map_map, Nat.add_zero, Nat.mod_eq_of_lt h.rd_lt]
  congr 1
  refine List.map_congr_left fun i _ => ?_
  simp only [Function.comp_apply]
  rw [Nat.mod_add_mod, Nat.succ_eq_add_one, Nat.add_assoc, Nat.add_comm 1 i]

/-- Taking `k` elements at once. -/
theorem Wf.drop (h : Wf size rd wr len) {k : Nat} (hk : k ≤ len) : Wf size ((rd + k) % size) wr (len - k) := by
  refine ⟨Nat.mod_lt _ h.size_pos, ?_, Nat.le_trans (Nat.sub_le _ _) h.len_le⟩
  rw [h.wr_eq, Nat.mod_add_mod]
  congr 1
  omega

theorem content_drop {k : Nat} (hk : k ≤ len) :
    (content data size rd len).drop k = content data size ((rd + k) % size) (len - k) := by
  obtain ⟨m, rfl⟩ := Nat.exists_eq_add_of_le hk
  unfold content
  rw [Nat.add_sub_cancel_left, List.range_add, List.map_append, List.map_map,
    List.drop_left' (by simp)]
  refine List.map_congr_left fun i _ => ?_
  simp only [Function.comp_apply]
  rw [Nat.mod_add_mod, Nat.add_assoc]

end Ring
end Lib
end Pico
