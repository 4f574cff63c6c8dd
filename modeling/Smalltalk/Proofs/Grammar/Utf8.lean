import Mathlib
import Smalltalk.Text.Utf8

/-!
# Reading text that was written as bytes

Bytes that come from a text are read as that text. A character is one to four bytes, and each of
the four forms is followed through the states that reading goes through.

## Main results

* `Text.utf8_eq_flatMap`: the bytes of a text are those of its characters
* `Text.decodeLossy_utf8`: the bytes of a text are read as the text
-/

namespace Smalltalk

namespace Text

theorem utf8_ofList (cs : List Char) :
    utf8 (String.ofList cs) = cs.flatMap String.utf8EncodeChar := by
  rw [utf8, String.toByteArray_ofList, List.utf8Encode]
  simp

theorem utf8_eq_flatMap (s : String) : utf8 s = s.toList.flatMap String.utf8EncodeChar := by
  rw [← utf8_ofList, String.ofList_toList]

theorem utf8_append (s t : String) : utf8 (s ++ t) = utf8 s ++ utf8 t := by
  simp only [utf8, String.toByteArray_append]
  simp

/-! ### First bytes -/

section Lead

variable {b : UInt8}

/-- What a first byte does, with its number compared instead of itself. -/
theorem lead_eq (b : UInt8) : lead b =
    if b.toNat < 0x80 then .char (Char.ofNat b.toNat)
    else if b.toNat < 0xC2 then .invalid
    else if b.toNat < 0xE0 then .start ⟨b.toNat - 0xC0, 0, 0x80, 0xBF⟩
    else if b.toNat = 0xE0 then .start ⟨0, 1, 0xA0, 0xBF⟩
    else if b.toNat = 0xED then .start ⟨0xD, 1, 0x80, 0x9F⟩
    else if b.toNat < 0xF0 then .start ⟨b.toNat - 0xE0, 1, 0x80, 0xBF⟩
    else if b.toNat = 0xF0 then .start ⟨0, 2, 0x90, 0xBF⟩
    else if b.toNat < 0xF4 then .start ⟨b.toNat - 0xF0, 2, 0x80, 0xBF⟩
    else if b.toNat = 0xF4 then .start ⟨4, 2, 0x80, 0x8F⟩
    else .invalid := by
  simp only [lead, UInt8.lt_iff_toNat_lt, beq_iff_eq, ← UInt8.toNat_inj]
  rfl

end Lead

/-! ### Characters -/

theorem toNat_ofNat_of_lt {n : Nat} (h : n < 256) : (UInt8.ofNat n).toNat = n := by
  rw [UInt8.toNat_ofNat', Nat.mod_eq_of_lt h]

/-- A byte that completes a character. -/
theorem decodeFrom_last {bits : Nat} {low high : UInt8} {n : Nat} (bs : List UInt8)
    (hn : n < 64) (hlow : low.toNat ≤ n + 0x80) (hhigh : n + 0x80 ≤ high.toNat) :
    decodeFrom (some ⟨bits, 0, low, high⟩) (UInt8.ofNat (n + 0x80) :: bs) =
      Char.ofNat (bits * 64 + n) :: decodeFrom none bs := by
  have hb : (UInt8.ofNat (n + 0x80)).toNat = n + 0x80 := toNat_ofNat_of_lt (by omega)
  rw [decodeFrom, if_pos]
  · simp only [hb, Nat.add_sub_cancel]
  · rw [UInt8.le_iff_toNat_le, UInt8.le_iff_toNat_le, hb]
    exact ⟨hlow, hhigh⟩

/-- A byte that goes on with a character. -/
theorem decodeFrom_more {bits missing : Nat} {low high : UInt8} {n : Nat} (bs : List UInt8)
    (hn : n < 64) (hlow : low.toNat ≤ n + 0x80) (hhigh : n + 0x80 ≤ high.toNat) :
    decodeFrom (some ⟨bits, missing + 1, low, high⟩) (UInt8.ofNat (n + 0x80) :: bs) =
      decodeFrom (some ⟨bits * 64 + n, missing, 0x80, 0xBF⟩) bs := by
  have hb : (UInt8.ofNat (n + 0x80)).toNat = n + 0x80 := toNat_ofNat_of_lt (by omega)
  rw [decodeFrom, if_pos]
  · simp only [hb, Nat.add_sub_cancel]
  · rw [UInt8.le_iff_toNat_le, UInt8.le_iff_toNat_le, hb]
    exact ⟨hlow, hhigh⟩

theorem decodeFrom_lead {b : UInt8} {p : Partial} (h : lead b = .start p) (bs : List UInt8) :
    decodeFrom none (b :: bs) = decodeFrom (some p) bs := by
  rw [decodeFrom, h]

theorem decodeFrom_two {v : Nat} (hlow : 0x80 ≤ v) (hhigh : v < 0x800) (bs : List UInt8) :
    decodeFrom none (UInt8.ofNat (v / 64 % 32 + 0xC0) :: UInt8.ofNat (v % 64 + 0x80) :: bs) =
      Char.ofNat v :: decodeFrom none bs := by
  have hb : (UInt8.ofNat (v / 64 % 32 + 0xC0)).toNat = v / 64 + 0xC0 := by
    rw [toNat_ofNat_of_lt (by omega)]
    omega
  have hlead : lead (UInt8.ofNat (v / 64 % 32 + 0xC0)) = .start ⟨v / 64, 0, 0x80, 0xBF⟩ := by
    rw [lead_eq, hb, if_neg (by omega), if_neg (by omega), if_pos (by omega), Nat.add_sub_cancel]
  rw [decodeFrom_lead hlead, decodeFrom_last bs (by omega) (by simp) (by simp; omega),
    Nat.div_add_mod']

/-- The first of three bytes. The range of the second leaves out overlong forms and surrogates. -/
theorem lead_three {v : Nat} (hlow : 0x800 ≤ v) (hhigh : v < 0x10000)
    (hvalid : v < 0xD800 ∨ 0xE000 ≤ v) :
    ∃ low high, lead (UInt8.ofNat (v / 4096 % 16 + 0xE0)) = .start ⟨v / 4096, 1, low, high⟩ ∧
      low.toNat ≤ v / 64 % 64 + 0x80 ∧ v / 64 % 64 + 0x80 ≤ high.toNat := by
  have hb : (UInt8.ofNat (v / 4096 % 16 + 0xE0)).toNat = v / 4096 + 0xE0 := by
    rw [toNat_ofNat_of_lt (by omega)]
    omega
  rw [lead_eq, hb, if_neg (by omega), if_neg (by omega), if_neg (by omega)]
  by_cases hfirst : v / 4096 = 0
  · rw [if_pos (by omega), hfirst]
    exact ⟨_, _, rfl, by simp; omega, by simp; omega⟩
  rw [if_neg (by omega)]
  by_cases hsurrogates : v / 4096 = 0xD
  · rw [if_pos (by omega), hsurrogates]
    exact ⟨_, _, rfl, by simp, by simp; omega⟩
  rw [if_neg (by omega), if_pos (by omega), Nat.add_sub_cancel]
  exact ⟨_, _, rfl, by simp, by simp; omega⟩

theorem decodeFrom_three {v : Nat} (hlow : 0x800 ≤ v) (hhigh : v < 0x10000)
    (hvalid : v < 0xD800 ∨ 0xE000 ≤ v) (bs : List UInt8) :
    decodeFrom none (UInt8.ofNat (v / 4096 % 16 + 0xE0) :: UInt8.ofNat (v / 64 % 64 + 0x80) ::
        UInt8.ofNat (v % 64 + 0x80) :: bs) =
      Char.ofNat v :: decodeFrom none bs := by
  obtain ⟨low, high, hlead, hlow, hhigh⟩ := lead_three hlow hhigh hvalid
  have hbits : (v / 4096 * 64 + v / 64 % 64) * 64 + v % 64 = v := by omega
  rw [decodeFrom_lead hlead, decodeFrom_more _ (by omega) hlow hhigh,
    decodeFrom_last bs (by omega) (by simp) (by simp; omega), hbits]

/-- The first of four bytes. The range of the second leaves out overlong forms and numbers that are
too large. -/
theorem lead_four {v : Nat} (hlow : 0x10000 ≤ v) (hhigh : v < 0x110000) :
    ∃ low high, lead (UInt8.ofNat (v / 262144 % 8 + 0xF0)) = .start ⟨v / 262144, 2, low, high⟩ ∧
      low.toNat ≤ v / 4096 % 64 + 0x80 ∧ v / 4096 % 64 + 0x80 ≤ high.toNat := by
  have hb : (UInt8.ofNat (v / 262144 % 8 + 0xF0)).toNat = v / 262144 + 0xF0 := by
    rw [toNat_ofNat_of_lt (by omega)]
    omega
  rw [lead_eq, hb, if_neg (by omega), if_neg (by omega), if_neg (by omega), if_neg (by omega),
    if_neg (by omega), if_neg (by omega)]
  by_cases hfirst : v / 262144 = 0
  · rw [if_pos (by omega), hfirst]
    exact ⟨_, _, rfl, by simp; omega, by simp; omega⟩
  rw [if_neg (by omega)]
  by_cases hlast : v / 262144 = 4
  · rw [if_neg (by omega), if_pos (by omega), hlast]
    exact ⟨_, _, rfl, by simp, by simp; omega⟩
  rw [if_pos (by omega), Nat.add_sub_cancel]
  exact ⟨_, _, rfl, by simp, by simp; omega⟩

theorem decodeFrom_four {v : Nat} (hlow : 0x10000 ≤ v) (hhigh : v < 0x110000) (bs : List UInt8) :
    decodeFrom none (UInt8.ofNat (v / 262144 % 8 + 0xF0) :: UInt8.ofNat (v / 4096 % 64 + 0x80) ::
        UInt8.ofNat (v / 64 % 64 + 0x80) :: UInt8.ofNat (v % 64 + 0x80) :: bs) =
      Char.ofNat v :: decodeFrom none bs := by
  obtain ⟨low, high, hlead, hlow, hhigh⟩ := lead_four hlow hhigh
  have hbits : ((v / 262144 * 64 + v / 4096 % 64) * 64 + v / 64 % 64) * 64 + v % 64 = v := by
    omega
  rw [decodeFrom_lead hlead, decodeFrom_more _ (by omega) hlow hhigh,
    decodeFrom_more _ (by omega) (by simp) (by simp; omega),
    decodeFrom_last bs (by omega) (by simp) (by simp; omega), hbits]

theorem decodeFrom_utf8EncodeChar (c : Char) (bs : List UInt8) :
    decodeFrom none (String.utf8EncodeChar c ++ bs) = c :: decodeFrom none bs := by
  have hvalid : c.val.toNat < 0xD800 ∨ 0xDFFF < c.val.toNat ∧ c.val.toNat < 0x110000 := c.valid
  have hc : Char.ofNat c.val.toNat = c := Char.ofNat_toNat c
  unfold String.utf8EncodeChar
  dsimp only
  split
  · rename_i h
    have hlead : lead (UInt8.ofNat c.val.toNat) = .char c := by
      rw [lead_eq, toNat_ofNat_of_lt (by omega), if_pos (by omega), hc]
    rw [List.singleton_append, decodeFrom, hlead]
  split
  · exact (decodeFrom_two (by omega) (by omega) bs).trans (by rw [hc])
  split
  · exact (decodeFrom_three (by omega) (by omega) (by omega) bs).trans (by rw [hc])
  · exact (decodeFrom_four (by omega) (by omega) bs).trans (by rw [hc])

/-- The bytes of a text are read as the text. -/
@[simp] theorem decodeLossy_utf8 (s : String) : decodeLossy (utf8 s) = s := by
  have hdecode : ∀ cs : List Char, decodeFrom none (cs.flatMap String.utf8EncodeChar) = cs := by
    intro cs
    induction cs with
    | nil => rfl
    | cons c cs ih => rw [List.flatMap_cons, decodeFrom_utf8EncodeChar, ih]
  rw [decodeLossy, utf8_eq_flatMap, hdecode, String.ofList_toList]

end Text

end Smalltalk
