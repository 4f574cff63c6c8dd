/-!
# The byte store

An `Arena` is the raw storage under the object memory: a byte for every offset. It is total. Every
offset can be read and every offset can be written, and a byte that was never written is zero. What
an offset means, and which offsets an object may touch, is decided above this module; here there
are no bounds, so the read-back laws need no side conditions.

The store is a tree of words. The word with number 0 stands at the root, and the word with number
`n + 1` in the branch `n % 4`, where its number is `n / 4`. A branch in which nothing was written is
not there, so what is written at high offsets takes no space at low ones, and writing a word copies
as many nodes as its number has digits. Since the tree is ordinary data, a machine is a value that
can be computed with inside the logic, too.

## Main definitions

* `WordTree.get`, `WordTree.set`: one word
* `Arena.get`, `Arena.set`: one byte
* `Arena.getWord`, `Arena.setWord`: four bytes, least significant first
* `Arena.copyWords`, `Arena.fillWords`: runs of words

## Main results

* `WordTree.get_set`, `Arena.get_set`: reading one word, or byte, after writing another
* `Arena.get_setWord`: reading a byte after writing a word
-/

namespace Smalltalk

/-- A word for every number. -/
inductive WordTree where
  /-- All words are zero. -/
  | blank
  /-- The word with number 0 and the four branches. -/
  | node (here : UInt32) (a b c d : WordTree)

namespace WordTree

/-- The word with a number. -/
def get : WordTree → Nat → UInt32
  | blank, _ => 0
  | node v a b c d, n =>
    match n with
    | 0 => v
    | k + 1 =>
      match k % 4 with
      | 0 => a.get (k / 4)
      | 1 => b.get (k / 4)
      | 2 => c.get (k / 4)
      | _ => d.get (k / 4)

/-- Puts a word into a tree, going down as many branches as the first argument allows. -/
def update : Nat → WordTree → Nat → UInt32 → WordTree
  | 0, t, _, _ => t
  | f + 1, blank, n, w =>
    match n with
    | 0 => node w blank blank blank blank
    | k + 1 =>
      match k % 4 with
      | 0 => node 0 (update f blank (k / 4) w) blank blank blank
      | 1 => node 0 blank (update f blank (k / 4) w) blank blank
      | 2 => node 0 blank blank (update f blank (k / 4) w) blank
      | _ => node 0 blank blank blank (update f blank (k / 4) w)
  | f + 1, node v a b c d, n, w =>
    match n with
    | 0 => node w a b c d
    | k + 1 =>
      match k % 4 with
      | 0 => node v (update f a (k / 4) w) b c d
      | 1 => node v a (update f b (k / 4) w) c d
      | 2 => node v a b (update f c (k / 4) w) d
      | _ => node v a b c (update f d (k / 4) w)

/-- Puts a word. A number has at least as many binary digits as there are branches to its word. -/
@[inline] def set (t : WordTree) (n : Nat) (w : UInt32) : WordTree :=
  update (n.log2 + 2) t n w

theorem get_update_zero (f : Nat) (t : WordTree) (j : Nat) (w : UInt32) :
    (update (f + 1) t 0 w).get j = if j = 0 then w else t.get j := by
  cases j with
  | zero => cases t <;> simp [update, get]
  | succ l =>
    rw [if_neg (Nat.succ_ne_zero l)]
    cases t with
    | blank => simp only [update, get]; split <;> rfl
    | node v a b c d => simp only [update, get]

theorem get_update {f i : Nat} (hi : i < 1 <<< f) (t : WordTree) (j : Nat) (w : UInt32) :
    (update (f + 1) t i w).get j = if j = i then w else t.get j := by
  induction f generalizing t i j with
  | zero =>
    obtain rfl : i = 0 := Nat.lt_one_iff.1 hi
    exact get_update_zero _ t j w
  | succ f ih =>
    cases i with
    | zero => exact get_update_zero _ t j w
    | succ k =>
      have hk : k / 4 < 1 <<< f := by rw [Nat.shiftLeft_succ] at hi; omega
      cases j with
      | zero => cases t <;> (simp only [update]; split <;> simp [get])
      | succ l =>
        -- two numbers are equal if they lie in the same branch and are equal there
        have hkl : l = k ↔ l % 4 = k % 4 ∧ l / 4 = k / 4 := by omega
        have hk4 : k % 4 = 0 ∨ k % 4 = 1 ∨ k % 4 = 2 ∨ k % 4 = 3 := by omega
        have hl4 : l % 4 = 0 ∨ l % 4 = 1 ∨ l % 4 = 2 ∨ l % 4 = 3 := by omega
        rw [update.eq_def]
        cases t <;>
          rcases hk4 with hk4 | hk4 | hk4 | hk4 <;> rcases hl4 with hl4 | hl4 | hl4 | hl4 <;>
          simp [get, hk4, hl4, hkl, ih hk]

/-- **Read after write.** -/
theorem get_set (t : WordTree) (i j : Nat) (w : UInt32) :
    (t.set i w).get j = if j = i then w else t.get j :=
  get_update (Nat.one_shiftLeft _ ▸ Nat.lt_log2_self) t j w

end WordTree

/-- A byte for every offset. -/
structure Arena where
  /-- Four bytes for every number, least significant first. -/
  words : WordTree

namespace Arena

/-- The store in which every byte is zero. -/
def empty : Arena := ⟨.blank⟩

/-- The byte at an offset. -/
@[inline] def get (a : Arena) (i : Nat) : UInt8 :=
  (a.words.get (i / 4) >>> UInt32.ofNat (8 * (i % 4))).toUInt8

/-- Puts a byte at an offset. -/
@[inline] def set (a : Arena) (i : Nat) (b : UInt8) : Arena :=
  let w := a.words.get (i / 4)
  let place := UInt32.ofNat (8 * (i % 4))
  ⟨a.words.set (i / 4) (w - ((w >>> place).toUInt8.toUInt32 <<< place) + (b.toUInt32 <<< place))⟩

/-- The word at an offset, which need not be aligned. -/
def getWord (a : Arena) (i : Nat) : UInt32 :=
  match i % 4 with
  | 0 => a.words.get (i / 4)
  | _ => (a.get i).toUInt32 + ((a.get (i + 1)).toUInt32 <<< 8) +
    ((a.get (i + 2)).toUInt32 <<< 16) + ((a.get (i + 3)).toUInt32 <<< 24)

/-- Puts a word at an offset. -/
def setWord (a : Arena) (i : Nat) (w : UInt32) : Arena :=
  match i % 4 with
  | 0 => ⟨a.words.set (i / 4) w⟩
  | _ => (((a.set i w.toUInt8).set (i + 1) (w >>> 8).toUInt8).set (i + 2) (w >>> 16).toUInt8).set
    (i + 3) (w >>> 24).toUInt8

/-- Copies `n` words from offset `source` down to offset `target`, lowest first. -/
def copyDown (a : Arena) (source target : Nat) : Nat → Arena
  | 0 => a
  | n + 1 => copyDown (a.setWord target (a.getWord source)) (source + 4) (target + 4) n

/-- Copies `n` words from offset `source` up to offset `target`, highest first. -/
def copyUp (a : Arena) (source target : Nat) : Nat → Arena
  | 0 => a
  | n + 1 => copyUp (a.setWord (target + 4 * n) (a.getWord (source + 4 * n))) source target n

/-- Copies `n` words from offset `source` to offset `target`. The two runs may overlap: no word is
written before it has been read. -/
def copyWords (a : Arena) (source target n : Nat) : Arena :=
  if source < target then a.copyUp source target n else a.copyDown source target n

/-- Puts the same word into `n` places from an offset on. -/
def fillWords (a : Arena) (target : Nat) (w : UInt32) : Nat → Arena
  | 0 => a
  | n + 1 => fillWords (a.setWord target w) (target + 4) w n

/-- Puts a run of bytes at an offset. -/
def setBytes (a : Arena) (i : Nat) : List UInt8 → Arena
  | [] => a
  | b :: bs => setBytes (a.set i b) (i + 1) bs

/-- The `n` bytes from an offset on. -/
def getBytes (a : Arena) (i n : Nat) : List UInt8 :=
  (List.range n).map fun k => a.get (i + k)

/-! ### Read-back laws -/

/-- Nothing but zeros in the empty store. -/
@[simp] theorem get_empty (i : Nat) : empty.get i = 0 := by
  simp [get, empty, WordTree.get]

/-- The place of a byte in its word. -/
theorem toNat_place (i : Nat) : (UInt32.ofNat (8 * (i % 4))).toNat % 32 = 8 * (i % 4) := by
  rw [UInt32.toNat_ofNat_of_lt' (by simp only [UInt32.size]; omega)]
  omega

/-- A byte as a number. -/
theorem toNat_get (a : Arena) (i : Nat) :
    (a.get i).toNat = (a.words.get (i / 4)).toNat >>> (8 * (i % 4)) % 256 := by
  rw [get, UInt32.toNat_toUInt8, UInt32.toNat_shiftRight, toNat_place]

/-- Putting a byte into a word replaces that byte and keeps the other three. -/
theorem toNat_replace (w : UInt32) (b : UInt8) (i : Nat) {k : Nat} (hk : k < 4) :
    (w - ((w >>> UInt32.ofNat (8 * (i % 4))).toUInt8.toUInt32 <<< UInt32.ofNat (8 * (i % 4)))
        + (b.toUInt32 <<< UInt32.ofNat (8 * (i % 4)))).toNat >>> (8 * k) % 256 =
      if k = i % 4 then b.toNat else w.toNat >>> (8 * k) % 256 := by
  have hw := w.toNat_lt
  have hb := b.toNat_lt
  have hi : i % 4 < 4 := Nat.mod_lt _ (by decide)
  simp only [UInt32.toNat_add, UInt32.toNat_sub, UInt32.toNat_shiftLeft, UInt8.toNat_toUInt32,
    UInt32.toNat_toUInt8, UInt32.toNat_shiftRight, toNat_place, Nat.shiftLeft_eq,
    Nat.shiftRight_eq_div_pow]
  generalize i % 4 = l at hi ⊢
  obtain rfl | rfl | rfl | rfl : k = 0 ∨ k = 1 ∨ k = 2 ∨ k = 3 := by omega
  all_goals
    obtain rfl | rfl | rfl | rfl : l = 0 ∨ l = 1 ∨ l = 2 ∨ l = 3 := by omega
    all_goals
      simp
      omega

/-- **Read after write.** -/
theorem get_set (a : Arena) (i j : Nat) (b : UInt8) :
    (a.set i b).get j = if j = i then b else a.get j := by
  apply UInt8.toNat_inj.1
  rw [toNat_get, set]
  dsimp only
  rw [WordTree.get_set]
  by_cases hword : j / 4 = i / 4
  · rw [if_pos hword, toNat_replace _ _ _ (Nat.mod_lt _ (by decide))]
    by_cases hij : j = i
    · rw [if_pos hij, if_pos (by rw [hij])]
    · rw [if_neg hij, if_neg (by omega), toNat_get, hword]
  · rw [if_neg hword, if_neg (fun h => hword (by rw [h])), toNat_get]

/-- Reading a byte after writing a word: the four bytes of the word are replaced. -/
theorem get_setWord (a : Arena) (i j : Nat) (w : UInt32) :
    (a.setWord i w).get j =
      if j = i + 3 then (w >>> 24).toUInt8
      else if j = i + 2 then (w >>> 16).toUInt8
      else if j = i + 1 then (w >>> 8).toUInt8
      else if j = i then w.toUInt8
      else a.get j := by
  rw [setWord]
  split
  · next h =>
    rw [get, WordTree.get_set]
    by_cases hword : j / 4 = i / 4
    · rw [if_pos hword]
      obtain hj | hj | hj | hj : j = i ∨ j = i + 1 ∨ j = i + 2 ∨ j = i + 3 := by omega
      all_goals
        subst hj
        simp [Nat.add_mod, h]
    · rw [if_neg hword, if_neg (by omega), if_neg (by omega), if_neg (by omega),
        if_neg (by omega), get]
  · simp only [get_set]

/-- A word is the sum of its four bytes, each in its place. -/
theorem word_of_bytes (w : UInt32) :
    w.toUInt8.toUInt32 + ((w >>> 8).toUInt8.toUInt32 <<< 8) + ((w >>> 16).toUInt8.toUInt32 <<< 16)
      + ((w >>> 24).toUInt8.toUInt32 <<< 24) = w := by
  have h := w.toNat_lt
  apply UInt32.toNat_inj.1
  have h8 : UInt32.toNat 8 % 32 = 8 := by decide
  have h16 : UInt32.toNat 16 % 32 = 16 := by decide
  have h24 : UInt32.toNat 24 % 32 = 24 := by decide
  simp only [UInt32.toNat_add, UInt32.toNat_shiftLeft, UInt32.toNat_shiftRight,
    UInt8.toNat_toUInt32, UInt32.toNat_toUInt8, Nat.shiftLeft_eq, Nat.shiftRight_eq_div_pow,
    h8, h16, h24]
  omega

/-- A word is read byte by byte, aligned or not. -/
theorem getWord_eq_bytes (a : Arena) (i : Nat) :
    a.getWord i = (a.get i).toUInt32 + ((a.get (i + 1)).toUInt32 <<< 8) +
      ((a.get (i + 2)).toUInt32 <<< 16) + ((a.get (i + 3)).toUInt32 <<< 24) := by
  rw [getWord]
  split
  · next h =>
    have hget {k : Nat} (hk : k < 4) :
        a.get (i + k) = (a.words.get (i / 4) >>> UInt32.ofNat (8 * k)).toUInt8 := by
      rw [get, show (i + k) / 4 = i / 4 by omega, show (i + k) % 4 = k by omega]
    have hzero : a.get i = (a.words.get (i / 4)).toUInt8 := by simp [get, h]
    rw [hzero, hget (k := 1) (by decide), hget (k := 2) (by decide), hget (k := 3) (by decide)]
    exact (word_of_bytes _).symm
  · rfl

/-- Reading the word just written. -/
@[simp] theorem getWord_setWord_same (a : Arena) (i : Nat) (w : UInt32) :
    (a.setWord i w).getWord i = w := by
  have h0 : (a.setWord i w).get i = w.toUInt8 := by simp [get_setWord]
  have h1 : (a.setWord i w).get (i + 1) = (w >>> 8).toUInt8 := by simp [get_setWord]
  have h2 : (a.setWord i w).get (i + 2) = (w >>> 16).toUInt8 := by simp [get_setWord]
  have h3 : (a.setWord i w).get (i + 3) = (w >>> 24).toUInt8 := by simp [get_setWord]
  rw [getWord_eq_bytes, h0, h1, h2, h3, word_of_bytes]

/-- Reading a word that shares no byte with the one written. -/
theorem getWord_setWord_of_disjoint (a : Arena) {i j : Nat} (w : UInt32)
    (h : j + 4 ≤ i ∨ i + 4 ≤ j) : (a.setWord i w).getWord j = a.getWord j := by
  have hne : ∀ k < 4, ∀ l < 4, j + k ≠ i + l := by omega
  simp only [getWord_eq_bytes, get_setWord]
  grind

-- The laws above are all there is to know of words; nothing is gained by taking one apart.
attribute [irreducible] getWord setWord

end Arena

end Smalltalk
