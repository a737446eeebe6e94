import Leetcode.Lib.Scan
import Leetcode.Lib.Trace

/-!
# `535.c`: the URL shortener

A `char *` is a C string or `NULL`.  `malloc` and `strdup` are taken to succeed.  `decode`
leaves its variable `id` as it is when `sscanf` finds no number, so what the variable holds
before is an argument of the model.
-/

namespace Leetcode
namespace TinyUrl

open CLib

def BASE_URL : Bytes := ascii "http://tinyurl.com/"

def MAX_URLS : ℕ := 10000

/-- The global variables. -/
structure State where
  storedUrls : ℕ → Option CStr
  urlCount : ℕ

def State.init : State where
  storedUrls := fun _ => none
  urlCount := 0

/-- The text that `encode` prints for an id. -/
def shortUrl (id : ℕ) : Bytes := BASE_URL ++ decimal id

/-- `encode(longUrl)`: the state after the call, and what it returns. -/
def encode (s : State) (longUrl : CStr) : State × Option Bytes :=
  if MAX_URLS ≤ s.urlCount then (s, none)
  else
    ({ storedUrls := Function.update s.storedUrls s.urlCount (some longUrl)
       urlCount := s.urlCount + 1 },
      some (shortUrl s.urlCount))

/-- `decode(shortUrl)`, with `id` the variable before `sscanf`. -/
def decode (s : State) (id : ℤ) (url : Bytes) : Option CStr :=
  let id := (scanInt (url.drop BASE_URL.length)).getD id
  if id < 0 ∨ (s.urlCount : ℤ) ≤ id then none else s.storedUrls id.toNat

/-- The state after some calls of `encode`. -/
def stateAfter (calls : List CStr) : State := outcome encode State.init calls

/-- What these calls return. -/
def issued (calls : List CStr) : List (Option Bytes) := answers encode State.init calls

/-! ## One call -/

/-- `sprintf` stays inside the bytes that `encode` allocates. -/
theorem shortUrl_fits {id : ℕ} (h : id < MAX_URLS) :
    (shortUrl id).length + 1 ≤ BASE_URL.length + 12 := by
  have hdigits : (Nat.toDigits 10 id).length ≤ 4 :=
    (Nat.length_toDigits_le_iff (by omega) (by omega)).2 h
  rw [shortUrl, List.length_append]
  change BASE_URL.length + ((Nat.toDigits 10 id).map Char.toUInt8).length + 1 ≤ _
  rw [List.length_map]
  omega

/-- A call fails when the table is full, and then does nothing. -/
theorem encode_full {s : State} (h : MAX_URLS ≤ s.urlCount) (longUrl : CStr) :
    encode s longUrl = (s, none) := if_pos h

theorem encode_stores {s : State} (h : s.urlCount < MAX_URLS) (longUrl : CStr) :
    encode s longUrl =
      ({ storedUrls := Function.update s.storedUrls s.urlCount (some longUrl)
         urlCount := s.urlCount + 1 },
        some (shortUrl s.urlCount)) := if_neg (Nat.not_le_of_lt h)

/-- `decode` finds the id in a short URL. -/
theorem decode_shortUrl (s : State) (junk : ℤ) (id : ℕ) :
    decode s junk (shortUrl id) = if id < s.urlCount then s.storedUrls id else none := by
  unfold decode
  rw [shortUrl, List.drop_left, scanInt_decimal, Option.getD_some]
  by_cases hid : id < s.urlCount
  · rw [if_pos hid, if_neg (by omega), Int.toNat_natCast]
  · rw [if_neg hid, if_pos (by omega)]

theorem shortUrl_injective {i j : ℕ} (h : shortUrl i = shortUrl j) : i = j := by
  have hscan := scanInt_decimal i
  rw [List.append_cancel_left h, scanInt_decimal j] at hscan
  exact Int.ofNat.inj (Option.some.inj hscan).symm

end TinyUrl
end Leetcode
