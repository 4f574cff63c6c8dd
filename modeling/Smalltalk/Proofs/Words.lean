import Smalltalk.Instruction
import Smalltalk.Value
import Mathlib.Tactic.IntervalCases

/-!
# Words as values and as instructions

A word is read in two ways: as a value, when it stands in a field, and as an instruction, when it
stands in the code of a method. As values, words and values are the same in number, and the two
directions are inverse to each other. As instructions they are not: most opcodes leave bytes of the
word unread, so many words are one instruction, and of these an encoded instruction is the one with
zeros where nothing is read.

Which bytes an opcode reads is not taken from a table here. An opcode *uses* a byte if some word
with that opcode becomes another instruction, or none, when only that byte is changed.

## Main definitions

* `byteOf`: the bytes of a word
* `Instruction.Uses`: decoding depends on a byte

## Main results

* `Instruction.uses_iff`: which bytes each opcode uses
* `Instruction.byteOf_encode`: what is left of a word that was decoded
* `word_codecs_are_inverse`
-/

namespace Smalltalk

/-- Byte `k` of a word, the least significant being byte 0. -/
def byteOf (w : UInt32) (k : Nat) : UInt8 := UInt8.ofNat (w.toNat / 256 ^ k)

theorem toNat_byteOf (w : UInt32) (k : Nat) : (byteOf w k).toNat = w.toNat / 256 ^ k % 256 := by
  rw [byteOf, UInt8.toNat_ofNat']

/-- The word with the given bytes, the most significant first. -/
def wordOfBytes (b₃ b₂ b₁ b₀ : UInt8) : UInt32 :=
  UInt32.ofNat (b₃.toNat * 16777216 + b₂.toNat * 65536 + b₁.toNat * 256 + b₀.toNat)

theorem toNat_wordOfBytes (b₃ b₂ b₁ b₀ : UInt8) : (wordOfBytes b₃ b₂ b₁ b₀).toNat =
    b₃.toNat * 16777216 + b₂.toNat * 65536 + b₁.toNat * 256 + b₀.toNat := by
  have h₃ := b₃.toNat_lt
  have h₂ := b₂.toNat_lt
  have h₁ := b₁.toNat_lt
  have h₀ := b₀.toNat_lt
  rw [wordOfBytes, UInt32.toNat_ofNat']
  omega

theorem byteOf_wordOfBytes (b₃ b₂ b₁ b₀ : UInt8) {k : Nat} (hk : k < 4) :
    byteOf (wordOfBytes b₃ b₂ b₁ b₀) k = [b₀, b₁, b₂, b₃].getD k 0 := by
  have h₃ := b₃.toNat_lt
  have h₂ := b₂.toNat_lt
  have h₁ := b₁.toNat_lt
  have h₀ := b₀.toNat_lt
  apply UInt8.toNat_inj.1
  rw [toNat_byteOf, toNat_wordOfBytes]
  interval_cases k <;> simp only [List.getD_cons_zero, List.getD_cons_succ] <;> omega

/-! ## Values -/

namespace Value

/-- The top bit tells integers from addresses. -/
theorem isSmall_decode (w : UInt32) : (decode w).isSmall = decide (2147483648 ≤ w.toNat) := by
  unfold decode
  split
  · rename_i h
    exact (decide_eq_false (Nat.not_le.2 h)).symm
  · rename_i h
    rw [decide_eq_true (Nat.not_lt.1 h)]
    split <;> rfl

theorem isSmall_iff (v : Value) : v.isSmall = true ↔ 2147483648 ≤ v.encode.toNat := by
  rw [← decode_encode v, isSmall_decode, decode_encode, decide_eq_true_eq]

end Value

theorem SmallInt.ofInt?_of_mem {n : Int} (hl : -1073741824 ≤ n) (hu : n < 1073741824) :
    ofInt? n = some ⟨n, hl, hu⟩ := by
  cases n with
  | ofNat k =>
    rw [ofInt?, dif_pos (by simp only [Int.ofNat_eq_natCast] at hu; omega)]
    rfl
  | negSucc k =>
    rw [ofInt?, dif_pos (by rw [Int.negSucc_eq] at hl; omega)]
    exact congrArg some (SmallInt.ext (Int.negSucc_eq k).symm)

/-! ## Instructions -/

namespace Instruction

/-- Some word with this opcode is read differently when only its byte `k` is changed. -/
def Uses (opcode : UInt8) (k : Nat) : Prop :=
  ∃ w w' : UInt32, byteOf w 3 = opcode ∧ (∀ j < 4, j ≠ k → byteOf w' j = byteOf w j) ∧
    decode w' ≠ decode w

/-- Decoding takes a word apart into bytes. -/
theorem decode_eq (w : UInt32) : decode w =
    ofParts (byteOf w 3) (byteOf w 2) ((byteOf w 1).toUInt16 * 256 + (byteOf w 0).toUInt16) := by
  have h16 : UInt32.toNat 16 % 32 = 16 := by decide
  have h24 : UInt32.toNat 24 % 32 = 24 := by decide
  have hop : (w >>> 24).toUInt8 = byteOf w 3 := by
    apply UInt8.toNat_inj.1
    simp only [toNat_byteOf, UInt32.toNat_toUInt8, UInt32.toNat_shiftRight,
      Nat.shiftRight_eq_div_pow, h24]
    rfl
  have hsmall : (w >>> 16).toUInt8 = byteOf w 2 := by
    apply UInt8.toNat_inj.1
    simp only [toNat_byteOf, UInt32.toNat_toUInt8, UInt32.toNat_shiftRight,
      Nat.shiftRight_eq_div_pow, h16]
    rfl
  have hlarge : w.toUInt16 = (byteOf w 1).toUInt16 * 256 + (byteOf w 0).toUInt16 := by
    apply UInt16.toNat_inj.1
    have h256 : UInt16.toNat 256 = 256 := by decide
    simp only [UInt16.toNat_add, UInt16.toNat_mul, UInt8.toNat_toUInt16, toNat_byteOf,
      UInt32.toNat_toUInt16, h256]
    omega
  rw [decode, hop, hsmall, hlarge]

/-- The opcodes that come with a small operand. -/
def takesSmall (opcode : UInt8) : Bool := 0x11 ≤ opcode && opcode ≤ 0x14

/-- The opcodes that come with a large operand. -/
def takesLarge (opcode : UInt8) : Bool := 0x09 ≤ opcode && opcode ≤ 0x15

variable {o s : UInt8} {l : UInt16} {i : Instruction}

/-- **There are 22 opcodes**, from zero on. -/
theorem ofParts_eq_error_iff : (∃ f, ofParts o s l = .error f) ↔ 0x15 < o := by
  unfold ofParts
  split
  case h_23 =>
    refine ⟨fun _ => ?_, fun _ => ⟨_, rfl⟩⟩
    by_contra hle
    have hle : o.toNat ≤ 21 := UInt8.not_lt.1 hle
    have ho : o = UInt8.ofNat o.toNat := UInt8.ofNat_toNat.symm
    generalize o.toNat = n at hle ho
    subst ho
    interval_cases n <;> contradiction
  all_goals
    refine ⟨?_, fun h => absurd h (by decide)⟩
    rintro ⟨f, hf⟩
    cases hf

/-- What an instruction keeps of the parts it was made of. -/
theorem ofParts_eq_ok (h : ofParts o s l = .ok i) : i.opcode = o ∧
    i.smallOperand = (if takesSmall o then s else 0) ∧
    i.largeOperand = if takesLarge o then l else 0 := by
  unfold ofParts at h
  split at h <;> cases h <;> exact ⟨rfl, rfl, rfl⟩

/-- **An instruction depends on the operands that its opcode comes with**, and on no other. -/
theorem ofParts_eq_iff (ho : ¬ 0x15 < o) {s' : UInt8} {l' : UInt16} :
    ofParts o s' l' = ofParts o s l ↔ (takesSmall o → s' = s) ∧ (takesLarge o → l' = l) := by
  constructor
  · intro h
    cases hi : ofParts o s l with
    | error f => exact absurd (ofParts_eq_error_iff.1 ⟨f, hi⟩) ho
    | ok i =>
      obtain ⟨-, hsmall, hlarge⟩ := ofParts_eq_ok hi
      obtain ⟨-, hsmall', hlarge'⟩ := ofParts_eq_ok (h.trans hi)
      refine ⟨fun hs => ?_, fun hl => ?_⟩
      · rw [if_pos hs] at hsmall hsmall'
        exact hsmall'.symm.trans hsmall
      · rw [if_pos hl] at hlarge hlarge'
        exact hlarge'.symm.trans hlarge
  · rintro ⟨hs, hl⟩
    unfold ofParts
    split <;> simp_all [takesSmall, takesLarge]

/-- The operand bytes that an opcode uses are those of the operands it comes with. -/
theorem uses_iff (ho : ¬ 0x15 < o) {k : Nat} (hk : k < 3) :
    Uses o k ↔ if k = 2 then takesSmall o else takesLarge o := by
  constructor
  · rintro ⟨w, w', rfl, hsame, hdecode⟩
    by_contra hunused
    -- neither operand that is read has changed
    refine hdecode ?_
    rw [decode_eq, decode_eq, hsame 3 (by omega) (by omega)]
    refine (ofParts_eq_iff ho).2 ⟨fun hs => hsame 2 (by omega) ?_, fun hl => ?_⟩
    · rintro rfl
      exact hunused hs
    · have h2 : k = 2 := by
        by_contra h2
        exact hunused (by rwa [if_neg h2])
      rw [hsame 1 (by omega) (by omega), hsame 0 (by omega) (by omega)]
  · intro hused
    have hbytes : ∀ b₂ b₁ b₀ : UInt8, decode (wordOfBytes o b₂ b₁ b₀) =
        ofParts o b₂ (b₁.toUInt16 * 256 + b₀.toUInt16) := fun b₂ b₁ b₀ => by
      rw [decode_eq, byteOf_wordOfBytes _ _ _ _ (by omega), byteOf_wordOfBytes _ _ _ _ (by omega),
        byteOf_wordOfBytes _ _ _ _ (by omega), byteOf_wordOfBytes _ _ _ _ (by omega)]
      rfl
    refine ⟨wordOfBytes o 0 0 0, wordOfBytes o (if k = 2 then 1 else 0) (if k = 1 then 1 else 0)
      (if k = 0 then 1 else 0), ?_, fun j hj hjk => ?_, ?_⟩
    · rw [byteOf_wordOfBytes _ _ _ _ (by omega)]
      rfl
    · rw [byteOf_wordOfBytes _ _ _ _ hj, byteOf_wordOfBytes _ _ _ _ hj]
      interval_cases j <;> simp [hjk.symm]
    · rw [hbytes, hbytes, Ne, ofParts_eq_iff ho]
      rintro ⟨hs, hl⟩
      interval_cases k
      · exact absurd (hl hused) (by decide)
      · exact absurd (hl hused) (by decide)
      · exact absurd (hs hused) (by decide)

theorem encode_eq (i : Instruction) : i.encode = wordOfBytes i.opcode i.smallOperand
    (UInt8.ofNat (i.largeOperand.toNat / 256)) (UInt8.ofNat i.largeOperand.toNat) := by
  have hl := i.largeOperand.toNat_lt
  apply UInt32.toNat_inj.1
  rw [toNat_encode, toNat_wordOfBytes, UInt8.toNat_ofNat', UInt8.toNat_ofNat']
  omega

/-- **What is left of a word that was decoded**: the opcode, and the operand bytes that it uses. -/
theorem byteOf_encode {w : UInt32} (h : decode w = .ok i) : byteOf i.encode 3 = byteOf w 3 ∧
    ∀ k < 3, (Uses (byteOf w 3) k → byteOf i.encode k = byteOf w k) ∧
      (¬ Uses (byteOf w 3) k → byteOf i.encode k = 0) := by
  rw [decode_eq] at h
  have ho : ¬ 0x15 < byteOf w 3 := fun hlt => by
    obtain ⟨f, hf⟩ := ofParts_eq_error_iff.2 hlt
    cases h.symm.trans hf
  obtain ⟨hopcode, hsmall, hlarge⟩ := ofParts_eq_ok h
  have hbytes : ∀ k < 3, byteOf i.encode k =
      if (if k = 2 then takesSmall (byteOf w 3) else takesLarge (byteOf w 3)) then byteOf w k
        else 0 := by
    intro k hk
    have hl : ((byteOf w 1).toUInt16 * 256 + (byteOf w 0).toUInt16).toNat =
        (byteOf w 1).toNat * 256 + (byteOf w 0).toNat := by
      have h1 := (byteOf w 1).toNat_lt
      have h0 := (byteOf w 0).toNat_lt
      have h256 : UInt16.toNat 256 = 256 := by decide
      simp only [UInt16.toNat_add, UInt16.toNat_mul, UInt8.toNat_toUInt16, h256]
      omega
    rw [encode_eq, byteOf_wordOfBytes _ _ _ _ (by omega)]
    interval_cases k
    · show UInt8.ofNat i.largeOperand.toNat = if takesLarge (byteOf w 3) then byteOf w 0 else 0
      rw [hlarge]
      split
      · rw [hl, UInt8.ofNat_add, UInt8.ofNat_mul, UInt8.ofNat_toNat, UInt8.ofNat_toNat]
        simp
      · rfl
    · show UInt8.ofNat (i.largeOperand.toNat / 256) =
        if takesLarge (byteOf w 3) then byteOf w 1 else 0
      rw [hlarge]
      split
      · have h0 := (byteOf w 0).toNat_lt
        rw [hl, show ((byteOf w 1).toNat * 256 + (byteOf w 0).toNat) / 256 = (byteOf w 1).toNat by
          omega, UInt8.ofNat_toNat]
      · rfl
    · exact hsmall
  refine ⟨?_, fun k hk => ?_⟩
  · rw [encode_eq, byteOf_wordOfBytes _ _ _ _ (by omega)]
    exact hopcode
  · rw [uses_iff ho hk, hbytes k hk]
    exact ⟨fun hused => if_pos hused, fun hunused => if_neg hunused⟩

end Instruction

/-- **The two readings of words are exact.** As values, words and values determine each other; every
integer of 31 bits and every address of 31 bits has a word of its own, and the top bit of a word
tells which of the two it is. As instructions, decoding undoes encoding; a word is no instruction
exactly if its opcode is above the last one; and encoding what a word was decoded to gives that
word, with those operand bytes cleared that its opcode does not use. -/
theorem word_codecs_are_inverse :
    (∀ w, (Value.decode w).encode = w) ∧
    (∀ n : Int, -2 ^ 30 ≤ n → n ≤ 2 ^ 30 - 1 → ∃ v, Value.ofInt? n = some v ∧ v.int? = some n ∧
      Value.decode v.encode = v ∧ 2 ^ 31 ≤ v.encode.toNat) ∧
    (∀ n < 2 ^ 31, ∃ a, Address.ofNat? n = some a ∧ a.offset = n ∧
      Value.decode (Value.encode (.ref a)) = .ref a ∧ (Value.encode (.ref a)).toNat < 2 ^ 31) ∧
    (∀ w, (Value.decode w).isSmall = true ↔ 2 ^ 31 ≤ w.toNat) ∧
    (∀ i, Instruction.decode (Instruction.encode i) = .ok i) ∧
    (∀ w, (∃ f, Instruction.decode w = .error f) ↔ 0x15 < byteOf w 3) ∧
    ∀ w i, Instruction.decode w = .ok i → byteOf i.encode 3 = byteOf w 3 ∧
      ∀ k < 3, (Instruction.Uses (byteOf w 3) k → byteOf i.encode k = byteOf w k) ∧
        (¬ Instruction.Uses (byteOf w 3) k → byteOf i.encode k = 0) := by
  refine ⟨Value.encode_decode, fun n hl hu => ?_, fun n hn => ?_, fun w => ?_,
    Instruction.decode_encode, fun w => ?_, fun w i => Instruction.byteOf_encode⟩
  · refine ⟨.small ⟨n, hl, by omega⟩, ?_, rfl, Value.decode_encode _, (Value.isSmall_iff _).1 rfl⟩
    rw [Value.ofInt?, SmallInt.ofInt?_of_mem hl (by omega)]
    rfl
  · refine ⟨⟨n, hn⟩, dif_pos hn, rfl, Value.decode_encode _, ?_⟩
    exact Nat.not_le.1 fun h => Bool.false_ne_true ((Value.isSmall_iff _).2 h)
  · rw [Value.isSmall_decode, decide_eq_true_eq]
    rfl
  · rw [Instruction.decode_eq]
    exact Instruction.ofParts_eq_error_iff

end Smalltalk
