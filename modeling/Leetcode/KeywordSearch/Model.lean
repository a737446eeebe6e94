import Leetcode.Lib.CString

/-!
# `Memory_Mapped_File.c`: a keyword in a mapped file

Whether `open`, `fstat` and `mmap` succeed is an input; an empty file has no mapping in any case.
The file does not change while it is mapped.  A `size_t` has 64 bits.

What is printed on the standard error output is left out.
-/

namespace Leetcode
namespace KeywordSearch

open CLib

/-- The outcomes of the calls of `map_file`. -/
structure Host where
  opened : Bool
  stated : Bool
  mapped : Bool

/-- How `main` ends. -/
structure Exit where
  status : ℕ
  stdout : Bytes
  deriving DecidableEq, Repr

/-- The sum of two `size_t`. -/
def sizeAdd (a b : ℕ) : ℕ := (a + b) % 2 ^ 64

/-- `map_file(filename, &file_size)`: the mapped bytes, or a null pointer. -/
def mapFile (host : Host) (file : Bytes) : Option Bytes :=
  if !host.opened then none
  else if !host.stated then none
  else if !host.mapped ∨ file.length = 0 then none
  else some file

/-- `printf("Match found at byte offset %zu\n", i)` -/
def matchLine (i : ℕ) : Bytes := ascii "Match found at byte offset " ++ decimal i ++ ascii "\n"

/-- The last line of the output. -/
def closingLine (keyword : Bytes) (matchCount : ℕ) : Bytes :=
  if matchCount = 0 then ascii "No matches found for '" ++ keyword ++ ascii "'.\n"
  else ascii "Total matches: " ++ decimal matchCount ++ ascii "\n"

/-- The loop of `search_keyword`, from `i` on: what it prints, and `match_count` behind it. -/
def searchLoop (fileData keyword : Bytes) : ℕ → ℕ → ℕ → Option (Bytes × ℕ)
  | 0, _, _ => none
  | fuel + 1, i, matchCount =>
      if sizeAdd i keyword.length ≤ fileData.length then
        (memcmp (fileData.drop i) keyword keyword.length).bind fun c =>
          if c = 0 then
            (searchLoop fileData keyword fuel (sizeAdd i 1) (sizeAdd matchCount 1)).map
              fun r => (matchLine i ++ r.1, r.2)
          else searchLoop fileData keyword fuel (sizeAdd i 1) matchCount
      else some ([], matchCount)

/-- `search_keyword(file_data, file_size, keyword)`: what it prints. -/
def searchKeyword (fileData keyword : Bytes) : Option Bytes :=
  (searchLoop fileData keyword (fileData.length + 2) 0 0).map
    fun r => r.1 ++ closingLine keyword r.2

/-- `main(argc, argv)`, where `file` is what the file has whose name is the first argument. -/
def main (argv : List Bytes) (host : Host) (file : Bytes) : Option Exit :=
  if argv.length ≠ 3 then some ⟨1, []⟩
  else
    match mapFile host file with
    | none => some ⟨1, []⟩
    | some fileData => (searchKeyword fileData (argv.getD 2 [])).map fun out => ⟨0, out⟩

end KeywordSearch
end Leetcode
