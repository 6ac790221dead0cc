import Mathlib.Data.List.Basic

/-! A file as an array of bytes with a cursor. It has storage, of which its size covers a first part.
A write may stop short; what is in storage that it adds and does not fill is not determined. -/

structure ByteFile (β : Type*) where
  bytes : List β
  size : Nat
  offset : Nat
  append : Bool

namespace ByteFile
variable {β : Type*} {v v' : ByteFile β} {o : Nat} {chunk chunk' bytes pad : List β}

/-- The list with the chunk in place of what it has from `o` on. -/
def splice (o : Nat) (chunk bytes : List β) : List β :=
  bytes.take o ++ chunk ++ bytes.drop (o + chunk.length)

/-- What is in the file. -/
def data (v : ByteFile β) : List β := v.bytes.take v.size

/-- The `n` bytes at the cursor, or those that there are. -/
def next (v : ByteFile β) (n : Nat) : List β := (v.bytes.drop v.offset).take n

/-- A file open for appending is written to at its end. -/
def settle (v : ByteFile β) : ByteFile β := if v.append then { v with offset := v.size } else v

/-- The file once the chunk is written at the cursor, with `pad` as new storage. -/
def put (v : ByteFile β) (chunk pad : List β) : ByteFile β := { v with
  bytes := splice v.offset chunk (v.bytes ++ pad)
  size := max v.size (v.offset + chunk.length)
  offset := v.offset + chunk.length }

/-- The first `k` bytes of the chunk are written. Only at the end of the storage are there more. -/
structure Writes (v : ByteFile β) (chunk : List β) (k : Nat) (v' : ByteFile β) : Prop where
  count : k ≤ chunk.length
  result : ∃ pad, v' = v.settle.put (chunk.take k) pad ∧
    (k ≠ 0 → v.settle.offset + k ≤ (v.bytes ++ pad).length) ∧
    (k < chunk.length → v.settle.offset + k = (v.bytes ++ pad).length)

/-- The cursor is in the file, and the file is all there. -/
structure Placed (v : ByteFile β) : Prop where
  plain : v.append = false
  inside : v.offset ≤ v.size
  stored : v.size ≤ v.bytes.length

theorem splice_nil (o : Nat) (bytes : List β) : splice o [] bytes = bytes := by
  simp [splice]

theorem length_splice (h : o ≤ bytes.length) :
    (splice o chunk bytes).length = max bytes.length (o + chunk.length) := by
  simp only [splice, List.length_append, List.length_take, List.length_drop]
  omega

theorem getElem?_splice (h : o ≤ bytes.length) (i : Nat) : (splice o chunk bytes)[i]? =
    if o ≤ i ∧ i < o + chunk.length then chunk[i - o]? else bytes[i]? := by
  rw [splice]
  grind

/-- A chunk behind a chunk. -/
theorem splice_splice (h : o ≤ bytes.length) :
    splice (o + chunk.length) chunk' (splice o chunk bytes) = splice o (chunk ++ chunk') bytes := by
  have hin : o + chunk.length ≤ (splice o chunk bytes).length := by
    rw [length_splice h]
    exact Nat.le_max_right _ _
  apply List.ext_getElem?
  intro i
  rw [getElem?_splice hin, getElem?_splice h, getElem?_splice h]
  grind

/-- What is behind the size does not matter. -/
theorem take_splice {n : Nat} (ho : o ≤ n) (hn : n ≤ bytes.length) :
    (splice o chunk bytes).take (max n (o + chunk.length)) = splice o chunk (bytes.take n) := by
  have hin : o ≤ (bytes.take n).length := by
    rw [List.length_take]
    omega
  apply List.ext_getElem?
  intro i
  rw [List.getElem?_take, getElem?_splice (Nat.le_trans ho hn), getElem?_splice hin]
  grind

theorem Placed.settle (h : v.Placed) : v.settle = v := by
  rw [ByteFile.settle, h.plain]
  rfl

theorem Placed.length_data (h : v.Placed) : v.data.length = v.size := by
  rw [data, List.length_take]
  exact Nat.min_eq_left h.stored

/-- A chunk that is written in full is part of what is in the file. -/
theorem Writes.full (hw : v.Writes chunk chunk.length v') (h : v.Placed) :
    v'.Placed ∧ v'.offset = v.offset + chunk.length ∧ v'.data = splice v.offset chunk v.data := by
  obtain ⟨-, pad, rfl, hin, -⟩ := hw
  rw [h.settle] at hin ⊢
  rw [List.take_length]
  have hsize : v.size ≤ (v.bytes ++ pad).length := by
    rw [List.length_append]
    exact Nat.le_trans h.stored (Nat.le_add_right _ _)
  have hstored : max v.size (v.offset + chunk.length) ≤ (v.bytes ++ pad).length := by
    apply Nat.max_le.mpr
    refine ⟨hsize, ?_⟩
    cases hn : chunk.length with
    | zero => exact Nat.le_trans h.inside hsize
    | succ n => exact hn ▸ hin (by omega)
  refine ⟨⟨h.plain, Nat.le_max_right _ _, ?_⟩, rfl, ?_⟩
  · show max v.size (v.offset + chunk.length) ≤ (splice v.offset chunk (v.bytes ++ pad)).length
    rw [length_splice (Nat.le_trans h.inside hsize)]
    exact Nat.le_trans hstored (Nat.le_max_left _ _)
  · show (splice v.offset chunk (v.bytes ++ pad)).take (max v.size (v.offset + chunk.length)) =
      splice v.offset chunk v.data
    rw [take_splice h.inside hsize, List.take_append_of_le_length h.stored]
    rfl

end ByteFile
