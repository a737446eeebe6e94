import Mathlib.Data.List.Infix
import Mathlib.Data.List.TakeWhile
import Mathlib.Tactic

/-!
# Byte strings and line reads of the C library

A C string is the list of its bytes, without the terminating NUL.  The module
gives the documented behaviour of the `<string.h>` and `<stdio.h>` functions
that text-record programs use: `strncmp`, `strstr`, `strcspn`, the `%d`
conversion, the cut made by `snprintf`, and `fgets` on a stream that is read
from front to back.

The lemmas turn the two string tests into the list relations `<+:` (prefix)
and `<:+:` (infix), and say what one `fgets` call returns on a line that is
shorter than the buffer, exactly fills it, or ends the file.
-/

namespace CLib

/-- The bytes of a C string, or of a file. -/
abbrev Bytes := List UInt8

/-- The bytes of a string literal. -/
def ascii (s : String) : Bytes := s.toList.map Char.toUInt8

/-- The byte `'\n'`. -/
def newline : UInt8 := 10

/-- A C string that is valid: no byte in front of the terminating NUL is zero. -/
abbrev CStr := { s : Bytes // (0 : UInt8) ∉ s }

/-! ## String functions -/

/-- `strncmp(s, t, n)`: the sign of the first difference among the first `n`
bytes, where a string that has ended counts as the byte 0. -/
def strncmp : Bytes → Bytes → Nat → Int
  | _, _, 0 => 0
  | [], [], _ + 1 => 0
  | [], b :: _, _ + 1 => - (b.toNat : Int)
  | a :: _, [], _ + 1 => (a.toNat : Int)
  | a :: s, b :: t, n + 1 =>
      if a = b then strncmp s t n else (a.toNat : Int) - (b.toNat : Int)

/-- `strcmp(s, t)`: the sign of the first difference, where a string that has ended counts
as the byte 0. -/
def strcmp : Bytes → Bytes → Int
  | [], [] => 0
  | [], b :: _ => - (b.toNat : Int)
  | a :: _, [] => (a.toNat : Int)
  | a :: s, b :: t => if a = b then strcmp s t else (a.toNat : Int) - (b.toNat : Int)

/-- `strstr(hay, needle)`: the tail of `hay` that starts at the first
occurrence of `needle`, or a null pointer. -/
def strstr : Bytes → Bytes → Option Bytes
  | [], needle => if needle.isPrefixOf [] then some [] else none
  | a :: hay, needle =>
      if needle.isPrefixOf (a :: hay) then some (a :: hay) else strstr hay needle

/-- The first difference of two blocks of bytes, as the difference of the two bytes. -/
def bytesDiff : Bytes → Bytes → Int
  | a :: s, b :: t => if a = b then bytesDiff s t else (a.toNat : Int) - (b.toNat : Int)
  | _, _ => 0

/-- `memcmp(s, t, n)`, which may read the first `n` bytes of both blocks, so both must have
them. -/
def memcmp (s t : Bytes) (n : Nat) : Option Int :=
  if n ≤ s.length ∧ n ≤ t.length then some (bytesDiff (s.take n) (t.take n)) else none

/-- `strcspn(s, reject)`: the length of the longest initial part of `s` without
a byte of `reject`. -/
def strcspn (s reject : Bytes) : Nat :=
  (s.takeWhile fun b => !reject.contains b).length

/-- The C string held by a character buffer: the bytes before the first NUL. -/
def cstring (buf : Bytes) : Bytes := buf.takeWhile (· != 0)

/-- The C string that `snprintf(buf, size, ...)` leaves in `buf` when the whole
formatted text is `text`. -/
def snprintf (size : Nat) (text : Bytes) : Bytes := text.take (size - 1)

/-- The `%d` conversion. -/
def decimal : Int → Bytes
  | .ofNat n => (Nat.toDigits 10 n).map Char.toUInt8
  | .negSucc n => 45 :: (Nat.toDigits 10 (n + 1)).map Char.toUInt8

/-! ## Streams -/

/-- A file opened for reading: the offset of the next byte and the bytes that
are still to be read. -/
structure Stream where
  pos : Nat
  rest : Bytes
  deriving DecidableEq, Repr

/-- The byte loop of `fgets`: at most `room` bytes, up to and including the
first newline.  Returns the bytes stored and the bytes left in the file. -/
def readLine : Nat → Bytes → Bytes × Bytes
  | 0, s => ([], s)
  | _ + 1, [] => ([], [])
  | room + 1, b :: s =>
      if b = newline then ([b], s)
      else (b :: (readLine room s).1, (readLine room s).2)

/-- `fgets(buf, size, fp)`: a null pointer at the end of the file, otherwise
the bytes stored before the terminating NUL and the advanced stream. -/
def fgets (size : Nat) (fp : Stream) : Option (Bytes × Stream) :=
  match fp.rest with
  | [] => none
  | b :: s =>
      let line := readLine (size - 1) (b :: s)
      some (line.1, ⟨fp.pos + line.1.length, line.2⟩)

/-! ## The string tests as list relations -/

theorem strncmp_eq_zero_iff (s t : Bytes) (hnul : (0 : UInt8) ∉ t) :
    strncmp s t t.length = 0 ↔ t <+: s := by
  induction t generalizing s with
  | nil => cases s <;> simp [strncmp]
  | cons b t ih =>
      rw [List.mem_cons, not_or] at hnul
      obtain ⟨hb, ht⟩ := hnul
      have hb' : b.toNat ≠ 0 := fun h => hb (UInt8.toNat.inj h.symm)
      cases s with
      | nil => simp [strncmp, hb']
      | cons a s =>
          by_cases hab : a = b
          · subst hab
            simp [strncmp, ih s ht]
          · have hne : a.toNat ≠ b.toNat := fun h => hab (UInt8.toNat.inj h)
            have hdiff : (a.toNat : Int) - (b.toNat : Int) ≠ 0 := by omega
            simp [strncmp, hab, hdiff, Ne.symm hab]

theorem strcmp_eq_zero_iff {s t : Bytes} (hs : (0 : UInt8) ∉ s) (ht : (0 : UInt8) ∉ t) :
    strcmp s t = 0 ↔ s = t := by
  have hne : ∀ {b : UInt8} {u : Bytes}, (0 : UInt8) ∉ b :: u → b.toNat ≠ 0 := by
    intro b u hu hb
    exact hu (List.mem_cons.2 (Or.inl (UInt8.toNat.inj hb).symm))
  induction s generalizing t with
  | nil =>
      cases t with
      | nil => simp [strcmp]
      | cons b t => simp [strcmp, hne ht]
  | cons a s ih =>
      cases t with
      | nil => simp [strcmp, hne hs]
      | cons b t =>
          rw [List.mem_cons, not_or] at hs ht
          by_cases hab : a = b
          · subst hab
            simp [strcmp, ih hs.2 ht.2]
          · have hne : a.toNat ≠ b.toNat := fun h => hab (UInt8.toNat.inj h)
            have hdiff : (a.toNat : Int) - (b.toNat : Int) ≠ 0 := by omega
            simp [strcmp, hab, hdiff]

theorem bytesDiff_eq_zero_iff {s t : Bytes} (hlen : s.length = t.length) :
    bytesDiff s t = 0 ↔ s = t := by
  induction s generalizing t with
  | nil => simp [bytesDiff, List.length_eq_zero_iff.1 hlen.symm]
  | cons a s ih =>
      cases t with
      | nil => simp at hlen
      | cons b t =>
          by_cases hab : a = b
          · subst hab
            simp [bytesDiff, ih (Nat.succ.inj hlen)]
          · have hne : a.toNat ≠ b.toNat := fun h => hab (UInt8.toNat.inj h)
            have hdiff : (a.toNat : Int) - (b.toNat : Int) ≠ 0 := by omega
            simp [bytesDiff, hab, hdiff]

/-- A `memcmp` over all bytes of the second block says whether the first one starts with them. -/
theorem memcmp_ok {s t : Bytes} (hlen : t.length ≤ s.length) :
    ∃ c, memcmp s t t.length = some c ∧ (c = 0 ↔ t <+: s) := by
  refine ⟨_, if_pos ⟨hlen, Nat.le_refl _⟩, ?_⟩
  have hlens : (s.take t.length).length = (t.take t.length).length := by
    rw [List.length_take, List.length_take, Nat.min_eq_left hlen, Nat.min_self]
  rw [bytesDiff_eq_zero_iff hlens, List.take_length, eq_comm, List.prefix_iff_eq_take]

theorem strstr_isSome_iff (hay needle : Bytes) :
    (strstr hay needle).isSome ↔ needle <:+: hay := by
  induction hay with
  | nil => cases needle <;> simp [strstr]
  | cons a hay ih =>
      by_cases h : needle <+: a :: hay
      · simp [strstr, h, h.isInfix]
      · simp [strstr, h, List.infix_cons_iff, ih]

private theorem takeWhile_noNewline {line : Bytes} (hnl : newline ∉ line) (rest : Bytes) :
    (line ++ rest).takeWhile (fun b => !([newline] : Bytes).contains b)
      = line ++ rest.takeWhile (fun b => !([newline] : Bytes).contains b) := by
  refine List.takeWhile_append_of_pos fun b hb => ?_
  have hne : b ≠ newline := fun h => hnl (h ▸ hb)
  simp [hne]

/-- A text without newline is all before its first newline. -/
theorem strcspn_text {line : Bytes} (hnl : newline ∉ line) :
    strcspn line [newline] = line.length := by
  have h := takeWhile_noNewline hnl []
  rw [List.append_nil, List.takeWhile_nil, List.append_nil] at h
  rw [strcspn, h]

/-- The first newline of a line is its line end. -/
theorem strcspn_line {line : Bytes} (hnl : newline ∉ line) (rest : Bytes) :
    strcspn (line ++ newline :: rest) [newline] = line.length := by
  rw [strcspn, takeWhile_noNewline hnl]
  simp

theorem cstring_eq_self {s : Bytes} (hnul : (0 : UInt8) ∉ s) : cstring s = s := by
  refine List.takeWhile_eq_self_iff.mpr fun b hb => ?_
  have hne : b ≠ 0 := fun h => hnul (h ▸ hb)
  simp [hne]

/-! ## One `fgets` call -/

@[simp] theorem readLine_nil (room : Nat) : readLine room [] = ([], []) := by
  cases room <;> rfl

/-- A line shorter than the buffer is read whole, with its newline. -/
theorem readLine_line {line : Bytes} (hnl : newline ∉ line) (rest : Bytes) {room : Nat}
    (hroom : line.length < room) :
    readLine room (line ++ newline :: rest) = (line ++ [newline], rest) := by
  induction line generalizing room with
  | nil =>
      obtain ⟨room, rfl⟩ := Nat.exists_eq_add_of_lt hroom
      simp [readLine]
  | cons b line ih =>
      rw [List.mem_cons, not_or] at hnl
      obtain ⟨hb, hline⟩ := hnl
      cases room with
      | zero => simp at hroom
      | succ room =>
          have hlt : line.length < room := by simpa using hroom
          simp [readLine, Ne.symm hb, ih hline hlt]

/-- A newline-free piece that fills the buffer is read without what follows it. -/
theorem readLine_full {piece : Bytes} (hnl : newline ∉ piece) (rest : Bytes) :
    readLine piece.length (piece ++ rest) = (piece, rest) := by
  induction piece with
  | nil => simp [readLine]
  | cons b piece ih =>
      rw [List.mem_cons, not_or] at hnl
      obtain ⟨hb, hpiece⟩ := hnl
      simp [readLine, Ne.symm hb, ih hpiece]

/-- An unterminated last line that fits the buffer is read to the end of file. -/
theorem readLine_eof {line : Bytes} (hnl : newline ∉ line) {room : Nat}
    (hroom : line.length ≤ room) : readLine room line = (line, []) := by
  induction line generalizing room with
  | nil => simp
  | cons b line ih =>
      rw [List.mem_cons, not_or] at hnl
      obtain ⟨hb, hline⟩ := hnl
      cases room with
      | zero => simp at hroom
      | succ room =>
          have hle : line.length ≤ room := by simpa using hroom
          simp [readLine, Ne.symm hb, ih hline hle]

/-- `fgets` loses and invents no byte. -/
theorem readLine_append (room : Nat) (s : Bytes) :
    (readLine room s).1 ++ (readLine room s).2 = s := by
  induction s generalizing room with
  | nil => simp
  | cons b s ih =>
      cases room with
      | zero => simp [readLine]
      | succ room => by_cases hb : b = newline <;> simp [readLine, hb, ih room]

/-- A non-empty file makes every read with room for a byte progress. -/
theorem readLine_ne_nil {room : Nat} (hroom : 0 < room) (b : UInt8) (s : Bytes) :
    (readLine room (b :: s)).1 ≠ [] := by
  cases room with
  | zero => exact absurd hroom (Nat.lt_irrefl 0)
  | succ room => by_cases hb : b = newline <;> simp [readLine, hb]

/-- What is left after a read that had room is shorter than before. -/
theorem readLine_rest_length {room : Nat} (hroom : 0 < room) (b : UInt8) (s : Bytes) :
    (readLine room (b :: s)).2.length ≤ s.length := by
  have happ := congrArg List.length (readLine_append room (b :: s))
  have hpos := List.length_pos_of_ne_nil (readLine_ne_nil hroom b s)
  simp only [List.length_append, List.length_cons] at happ
  omega

/-! ## The `%d` conversion -/

/-- A decimal numeral has only a minus sign and digits. -/
theorem mem_decimal {n : Int} {b : UInt8} (h : b ∈ decimal n) :
    b = 45 ∨ (48 ≤ b.toNat ∧ b.toNat ≤ 57) := by
  have hdigit : ∀ m : Nat, b ∈ (Nat.toDigits 10 m).map Char.toUInt8 →
      48 ≤ b.toNat ∧ b.toNat ≤ 57 := by
    intro m hm
    obtain ⟨c, hc, rfl⟩ := List.mem_map.mp hm
    have hisDigit := Nat.isDigit_of_mem_toDigits (by omega) (by omega) hc
    simp only [Char.isDigit, Bool.and_eq_true, decide_eq_true_eq, ge_iff_le,
      UInt32.le_iff_toNat_le] at hisDigit
    change 48 ≤ c.val.toNat ∧ c.val.toNat ≤ 57 at hisDigit
    simp only [Char.toUInt8, UInt32.toNat_toUInt8]
    omega
  cases n with
  | ofNat n => exact Or.inr (hdigit n h)
  | negSucc n =>
      rcases List.mem_cons.mp h with rfl | h
      · exact Or.inl rfl
      · exact Or.inr (hdigit (n + 1) h)

/-- A 32-bit number prints in at most eleven bytes. -/
theorem decimal_length_le (n : Int32) : (decimal n.toInt).length ≤ 11 := by
  have hlow := Int32.le_toInt n
  have hhigh := Int32.toInt_lt n
  have hdigits : ∀ m : Nat, m ≤ 2 ^ 31 → (Nat.toDigits 10 m).length ≤ 10 := by
    intro m hm
    exact (Nat.length_toDigits_le_iff (by omega) (by omega)).mpr (by omega)
  cases hn : n.toInt with
  | ofNat m =>
      rw [hn] at hlow hhigh
      have := hdigits m (by simp only [Int.ofNat_eq_natCast] at hhigh; omega)
      simp only [decimal, List.length_map]
      omega
  | negSucc m =>
      rw [hn] at hlow hhigh
      have := hdigits (m + 1) (by omega)
      simp only [decimal, List.length_cons, List.length_map]
      omega

end CLib
