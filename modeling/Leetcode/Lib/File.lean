import Leetcode.Lib.CString

/-!
# Files that are written at an offset

An open file has an offset, at which the next bytes are written and which moves on behind them.
`seek` may put the offset behind the end of the file; a write there fills the gap with zeros.
-/

namespace CLib

/-- The bytes of a file, and the offset of a descriptor. -/
structure File where
  content : Bytes
  offset : ℕ
  deriving DecidableEq

/-- A write that transfers these bytes. -/
def File.write (f : File) (bytes : Bytes) : File :=
  if bytes = [] then f
  else
    { content := (f.content ++ List.replicate (f.offset - f.content.length) 0).take f.offset ++
        (bytes ++ f.content.drop (f.offset + bytes.length))
      offset := f.offset + bytes.length }

/-- `lseek(fd, n, SEEK_SET)` -/
def File.seek (f : File) (n : ℕ) : File := { f with offset := n }

variable {f : File}

/-- A write at the end appends. -/
theorem write_end (h : f.offset = f.content.length) (bytes : Bytes) :
    f.write bytes = ⟨f.content ++ bytes, (f.content ++ bytes).length⟩ := by
  by_cases hbytes : bytes = []
  · rw [File.write, if_pos hbytes, hbytes, List.append_nil, ← h]
  · rw [File.write, if_neg hbytes, h, Nat.sub_self, List.replicate_zero, List.append_nil,
      List.take_length, List.drop_eq_nil_of_le (Nat.le_add_right _ _), List.append_nil,
      List.length_append]

/-- A byte that a write does not reach, and that is not a zero of a gap, was there before. -/
theorem write_outside {bytes : Bytes} {o : ℕ} {x : UInt8} (hx : x ≠ 0)
    (hout : o < f.offset ∨ f.offset + bytes.length ≤ o)
    (h : (f.write bytes).content[o]? = some x) : f.content[o]? = some x := by
  by_cases hbytes : bytes = []
  · rwa [File.write, if_pos hbytes] at h
  have hfront : ((f.content ++ List.replicate (f.offset - f.content.length) 0).take
      f.offset).length = f.offset := by
    rw [List.length_take, List.length_append, List.length_replicate]
    omega
  rw [File.write, if_neg hbytes] at h
  rcases hout with hlt | hge
  · rw [List.getElem?_append_left (by rw [hfront]; exact hlt), List.getElem?_take_of_lt hlt] at h
    by_cases hold : o < f.content.length
    · rwa [List.getElem?_append_left hold] at h
    · -- The byte is in the gap.
      rw [List.getElem?_append_right (Nat.not_lt.1 hold), List.getElem?_replicate] at h
      split at h
      · exact absurd (Option.some.inj h).symm hx
      · cases h
  · rw [List.getElem?_append_right (by rw [hfront]; omega), hfront,
      List.getElem?_append_right (by omega), List.getElem?_drop] at h
    rwa [show f.offset + bytes.length + (o - f.offset - bytes.length) = o by omega] at h

/-- A write of one byte replaces the one that is there, in a file that is long enough. -/
theorem write_byte (f : File) (n : ℕ) (x : UInt8) :
    ((f.seek n).write [x]).content =
      (f.content ++ List.replicate (n + 1 - f.content.length) 0).set n x := by
  have hlong : n < (f.content ++ List.replicate (n + 1 - f.content.length) 0).length := by
    rw [List.length_append, List.length_replicate]
    omega
  have htake : (f.content ++ List.replicate (n - f.content.length) 0).take n =
      (f.content ++ List.replicate (n + 1 - f.content.length) 0).take n := by
    rw [List.take_append, List.take_append, List.take_replicate, List.take_replicate]
    congr 2
    omega
  have hdrop : f.content.drop (n + 1) =
      (f.content ++ List.replicate (n + 1 - f.content.length) 0).drop (n + 1) := by
    rw [List.drop_append, List.drop_replicate, Nat.sub_self, List.replicate_zero, List.append_nil]
  rw [List.set_eq_take_append_cons_drop, if_pos hlong, ← htake, ← hdrop, File.write,
    if_neg (List.cons_ne_nil x [])]
  rfl

end CLib
