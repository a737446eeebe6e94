import Leetcode.KeywordSearch.Model

/-!
# What the search prints

* `offsets` — where the keyword occurs, from some offset on.
* `searchLoop_ok` — the loop reads inside the mapping only, ends, and prints these offsets.
* `main_prints` — what `main` returns and prints, whatever the calls of the host do.
-/

namespace Leetcode
namespace KeywordSearch

open CLib

/-- The offsets from `i` on at which the file goes on with the keyword, in their order. -/
def offsets (file keyword : Bytes) (i : ℕ) : List ℕ :=
  (List.range' i (file.length + 1 - i)).filter fun i => keyword.isPrefixOf (file.drop i)

/-- The output for these offsets. -/
def report (keyword : Bytes) (found : List ℕ) : Bytes :=
  found.flatMap matchLine ++ closingLine keyword found.length

variable {file keyword : Bytes} {i n fuel : ℕ}

/-! ## Offsets -/

theorem sizeAdd_eq {a b : ℕ} (hfits : a + b < 2 ^ 64) : sizeAdd a b = a + b :=
  Nat.mod_eq_of_lt hfits

/-- An offset behind which fewer bytes than the keyword has are left is no occurrence. -/
theorem offsets_eq_nil (hover : file.length < i + keyword.length) :
    offsets file keyword i = [] := by
  refine List.filter_eq_nil_iff.2 fun k hk => ?_
  obtain ⟨hge, hlt⟩ := List.mem_range'_1.1 hk
  rw [List.isPrefixOf_iff_prefix]
  intro hpre
  have hlen := hpre.length_le
  rw [List.length_drop] at hlen
  omega

theorem offsets_step (hle : i ≤ file.length) :
    offsets file keyword i =
      if keyword <+: file.drop i then i :: offsets file keyword (i + 1)
      else offsets file keyword (i + 1) := by
  have hlen : file.length + 1 - i = (file.length + 1 - (i + 1)) + 1 := by omega
  rw [offsets, hlen, List.range'_succ, List.filter_cons]
  simp only [List.isPrefixOf_iff_prefix]
  rfl

/-! ## The loop -/

/-- The loop from `i` on, when `n` matches have been found in front of `i`. -/
theorem searchLoop_ok (hfile : file.length < 2 ^ 63) (hkeyword : keyword.length < 2 ^ 63)
    (hi : i ≤ file.length + 1) (hn : n ≤ i) (hfuel : file.length + 2 ≤ i + fuel) :
    searchLoop file keyword fuel i n =
      some ((offsets file keyword i).flatMap matchLine,
        n + (offsets file keyword i).length) := by
  induction fuel generalizing i n with
  | zero => omega
  | succ fuel ih =>
      have hsum : sizeAdd i keyword.length = i + keyword.length := sizeAdd_eq (by omega)
      rw [searchLoop, hsum]
      by_cases hround : i + keyword.length ≤ file.length
      · -- the keyword fits between `i` and the end of the mapping
        have hlen : keyword.length ≤ (file.drop i).length := by
          rw [List.length_drop]
          omega
        obtain ⟨c, hc, hzero⟩ := memcmp_ok hlen
        have hnext : sizeAdd i 1 = i + 1 := sizeAdd_eq (by omega)
        have hcount : sizeAdd n 1 = n + 1 := sizeAdd_eq (by omega)
        rw [if_pos hround, hc, Option.bind_some, hnext, hcount, offsets_step (by omega)]
        by_cases hmatch : keyword <+: file.drop i
        · rw [if_pos (hzero.2 hmatch), if_pos hmatch,
            ih (by omega) (by omega) (by omega), Option.map_some, List.flatMap_cons,
            List.length_cons, Nat.add_assoc, Nat.add_comm 1]
        · rw [if_neg fun h => hmatch (hzero.1 h), if_neg hmatch,
            ih (by omega) (by omega) (by omega)]
      · rw [if_neg hround, offsets_eq_nil (by omega)]
        rfl

theorem searchKeyword_ok (hfile : file.length < 2 ^ 63) (hkeyword : keyword.length < 2 ^ 63) :
    searchKeyword file keyword = some (report keyword (offsets file keyword 0)) := by
  rw [searchKeyword, searchLoop_ok hfile hkeyword (by omega) (Nat.le_refl 0) (by omega),
    Option.map_some, Nat.zero_add]
  rfl

/-! ## The program -/

/-- `main` has its two arguments, and the file can be mapped. -/
def Mappable (argv : List Bytes) (host : Host) (file : Bytes) : Prop :=
  argv.length = 3 ∧ host.opened = true ∧ host.stated = true ∧ host.mapped = true ∧ file ≠ []

instance (argv : List Bytes) (host : Host) (file : Bytes) :
    Decidable (Mappable argv host file) :=
  inferInstanceAs (Decidable (_ ∧ _))

theorem mapFile_eq (host : Host) (file : Bytes) :
    mapFile host file =
      if host.opened = true ∧ host.stated = true ∧ host.mapped = true ∧ file ≠ [] then some file
      else none := by
  obtain ⟨opened, stated, mapped⟩ := host
  cases opened <;> cases stated <;> cases mapped <;> cases file <;> rfl

/-- For a file and a keyword of the lengths that a file and an object can have, `main` returns. It
prints, in ascending order, exactly the offsets at which the keyword occurs, overlapping
occurrences and the end of the file for an empty keyword included, and how many they are; it
prints nothing and returns 1 when it has not two arguments or cannot map the file, and an empty
file is one that it cannot map. -/
theorem main_prints (argv : List Bytes) (host : Host) (file : Bytes)
    (hfile : file.length < 2 ^ 63) (hkeyword : (argv.getD 2 []).length < 2 ^ 63) :
    main argv host file =
      some (if Mappable argv host file then
        ⟨0, report (argv.getD 2 []) (offsets file (argv.getD 2 []) 0)⟩ else ⟨1, []⟩) := by
  rw [main, mapFile_eq]
  by_cases hargv : argv.length = 3
  · rw [if_neg (not_not_intro hargv)]
    by_cases hmap : host.opened = true ∧ host.stated = true ∧ host.mapped = true ∧ file ≠ []
    · rw [if_pos hmap, if_pos ⟨hargv, hmap⟩]
      show (searchKeyword file (argv.getD 2 [])).map _ = _
      rw [searchKeyword_ok hfile hkeyword, Option.map_some]
    · rw [if_neg hmap, if_neg fun h : Mappable argv host file => hmap h.2]
  · rw [if_pos hargv, if_neg fun h : Mappable argv host file => hargv h.1]

/-- In `aaa` the keyword `aa` occurs twice. -/
theorem main_prints_overlapping :
    main [ascii "search", ascii "f", ascii "aa"] ⟨true, true, true⟩ (ascii "aaa") =
      some ⟨0, report (ascii "aa") [0, 1]⟩ :=
  main_prints [ascii "search", ascii "f", ascii "aa"] ⟨true, true, true⟩ (ascii "aaa")
    (by decide) (by decide)

end KeywordSearch
end Leetcode
