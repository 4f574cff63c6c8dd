import Smalltalk.Proofs.Image.Verification

/-!
# Reading images

Bytes that were written for a machine are read back as a machine with the same registers and the
same objects, byte by byte. The words of the header are read in front of whatever follows them, so
each part of the format has one lemma, and the lemmas are put together in the order of the parts.

An image that is accepted need not have been written by a machine. What is known of it is what the
check has looked for, and no more: an image with objects that are marked as moved is read as well.

## Main definitions

* `Image.Restores`: a machine has been read from an image of another

## Main results

* `Image.writeMachine_apply`: how far a machine is written
* `Image.read_writeMachine`: reading what was written
* `accepted_image_collectable`: what an accepted image satisfies, whoever wrote it
-/

namespace Smalltalk

open Memory Machine

/-! ## Memories with the same objects -/

section Agree

variable {m m' : Memory}

theorem Memory.Unspoiled.congr (hm : m.Unspoiled) (h : m.SameObjects m')
    (htiled : Tiles id m.extentAt m.start m.headers m.free) : m'.Unspoiled := by
  intro o ho
  rw [h.headers htiled] at ho
  have hsame := h.agreeAt htiled ho
  rw [hsame.sizeWordAt, hsame.hashAt]
  exact hm o ho

theorem Machine.Verified.congr {m m' : Machine} (hm : m.Verified)
    (h : m.memory.SameObjects m'.memory) (hnamed : m'.registers.named = m.registers.named) :
    m'.Verified := by
  have hheaders := h.headers hm.tiled
  constructor
  case tiled => rw [hheaders]; exact h.tiled hm.tiled
  case registers =>
    rw [hnamed]
    exact fun v hv => h.holds hm.tiled (hm.registers v hv)
  case cls =>
    rw [hheaders]
    intro o ho
    rw [(h.agreeAt hm.tiled ho).classAt]
    exact h.holds hm.tiled (hm.cls o ho)
  case field =>
    rw [hheaders]
    intro o ho hk i hi
    have hsame := h.agreeAt hm.tiled ho
    rw [hsame.kindAt] at hk
    rw [hsame.countAt] at hi
    rw [hsame.fieldAt hk hi]
    exact h.holds hm.tiled (hm.field o ho hk i hi)

end Agree

/-! ## Words and bytes -/

namespace Image

section Reading

variable {α β : Type} {events : List Event}

theorem bind_of_ok {ε σ : Type} {x : EStateM ε σ α} {k : α → EStateM ε σ β}
    {s s₁ : σ} {a : α} (h : x s = .ok a s₁) : (x >>= k) s = k a s₁ := by
  show EStateM.bind x k s = _
  rw [EStateM.bind, h]

theorem bind_of_error {ε σ : Type} {x : EStateM ε σ α} {k : α → EStateM ε σ β}
    {s s₁ : σ} {e : ε} (h : x s = .error e s₁) : (x >>= k) s = .error e s₁ := by
  show EStateM.bind x k s = _
  rw [EStateM.bind, h]

theorem nextWord_wordBytes (w : UInt32) (rest : List UInt8) :
    ImageReader.nextWord ⟨wordBytes w ++ rest, events⟩ = .ok w ⟨rest, events⟩ := by
  show EStateM.Result.ok _ _ = _
  rw [Arena.word_of_bytes]
  rfl

theorem nextWords_wordBytes (ws : List UInt32) {n : Nat} (h : ws.length = n) (rest : List UInt8) :
    ImageReader.nextWords n ⟨ws.flatMap wordBytes ++ rest, events⟩ = .ok ws ⟨rest, events⟩ := by
  subst h
  induction ws with
  | nil => rfl
  | cons w ws ih =>
    rw [List.flatMap_cons, List.append_assoc, List.length_cons, ImageReader.nextWords,
      bind_of_ok (nextWord_wordBytes w _), bind_of_ok ih]
    rfl

theorem nextBytes_append (bytes : List UInt8) {n : Nat} (h : bytes.length = n)
    (rest : List UInt8) :
    ImageReader.nextBytes n ⟨bytes ++ rest, events⟩ = .ok bytes ⟨rest, events⟩ := by
  subst h
  have hlength : ¬ (bytes ++ rest).length < bytes.length := by simp
  rw [ImageReader.nextBytes, if_neg hlength, List.take_left, List.drop_left]

theorem of_guard {c : Prop} [Decidable c] {e : ImageError} {k : PUnit → ReadImage α}
    {r : ImageReader} (hc : ¬ c) : (if c then throw e >>= k else k ⟨⟩) r = k ⟨⟩ r := by
  rw [if_neg hc]

theorem readHeader_wordBytes {capacity : Nat} {size : UInt32} (h : size.toNat ≤ capacity)
    (rest : List UInt8) :
    readHeader capacity
      ⟨[magic₁, magic₂, majorVersion, minorVersion, 0, size].flatMap wordBytes ++ rest, events⟩ =
      .ok size.toNat ⟨rest, events⟩ := by
  simp only [List.flatMap_cons, List.flatMap_nil, List.append_assoc, List.nil_append]
  unfold readHeader
  refine (bind_of_ok (nextWord_wordBytes _ _)).trans ((of_guard (by simp)).trans ?_)
  refine (bind_of_ok (nextWord_wordBytes _ _)).trans ((of_guard (by simp)).trans ?_)
  refine (bind_of_ok (nextWord_wordBytes _ _)).trans ((of_guard (by simp)).trans ?_)
  refine (bind_of_ok (nextWord_wordBytes _ _)).trans ?_
  rw [if_neg (by simp)]
  refine (bind_of_ok (nextWord_wordBytes _ _)).trans ?_
  refine (bind_of_ok (nextWord_wordBytes _ _)).trans ((of_guard (by simp)).trans ?_)
  exact (of_guard (Nat.not_lt.2 h)).trans rfl

/-- The words and the bytes of an image are read back. -/
theorem readMachine_of_parts (events : List Event) {settings : Settings}
    (hvalid : settings.validate = .ok ()) {roots : List UInt32} (hroots : roots.length = Root.count)
    {count ip sp size : UInt32}
    (hcount : count.toNat = Root.count) {objects : List UInt8} (hsize : size.toNat = objects.length)
    (hle : objects.length ≤ settings.semispaceSize)
    (hverify : (machineOf settings roots ip sp objects).verify = .ok ()) :
    readMachine settings
      ⟨([magic₁, magic₂, majorVersion, minorVersion, 0, size, count] ++ roots ++
        [ip, sp]).flatMap wordBytes ++ objects, events⟩ =
      .ok (machineOf settings roots ip sp objects) ⟨[], events⟩ := by
  have hsplit : ([magic₁, magic₂, majorVersion, minorVersion, 0, size, count] ++ roots ++
      [ip, sp]).flatMap wordBytes ++ objects =
      [magic₁, magic₂, majorVersion, minorVersion, 0, size].flatMap wordBytes ++
        (wordBytes count ++ (roots.flatMap wordBytes ++ (wordBytes ip ++ (wordBytes sp ++
          (objects ++ []))))) := by
    simp
  rw [hsplit]
  have hcreate : Memory.create settings = .ok (Memory.empty settings) := by
    rw [Memory.create, hvalid]
    rfl
  unfold readMachine
  refine (bind_of_ok (readHeader_wordBytes (hsize ▸ hle) _)).trans ?_
  rw [hcreate]
  refine (bind_of_ok rfl).trans ?_
  refine (bind_of_ok (nextWord_wordBytes _ _)).trans ((of_guard (not_not_intro hcount)).trans ?_)
  refine (bind_of_ok (nextWords_wordBytes _ hroots _)).trans ?_
  refine (bind_of_ok (nextWord_wordBytes _ _)).trans ?_
  refine (bind_of_ok (nextWord_wordBytes _ _)).trans ?_
  refine (bind_of_ok (nextBytes_append _ hsize.symm _)).trans ?_
  simp only [machineOf] at hverify
  simp only [hverify]
  rfl

end Reading

/-! ## Images of verified machines -/

section Writing

variable {m : Machine} {out bytes : List UInt8} {n : Nat}

theorem putNumber_of_lt (h : n < 4294967296) :
    WriteImage.putNumber n out = .ok () (out ++ [UInt32.ofNat n].flatMap wordBytes) := by
  rw [WriteImage.putNumber, if_pos h]
  rfl

theorem putNumber_of_le (h : 4294967296 ≤ n) :
    WriteImage.putNumber n out = .error (.corrupt .valueTooLarge) out := by
  rw [WriteImage.putNumber, if_neg (Nat.not_lt.2 h)]
  rfl

/-- The words of an image up to the registers. -/
def frontOf (m : Machine) : List UInt32 :=
  [magic₁, magic₂, majorVersion, minorVersion, 0, .ofNat m.memory.usedBytes,
    .ofNat m.registers.named.size] ++ m.registers.named.toList.map Value.encode

/-- **How far a machine is written.** Its registers always are, and the instruction pointer if it
fits. The rest follows if the number of operands fits too. -/
theorem writeMachine_apply (hused : m.memory.usedBytes < 4294967296) :
    writeMachine m [] =
      if m.ip < 4294967296 ∧ m.sp < 4294967296 then
        .ok () ((frontOf m ++ [UInt32.ofNat m.ip, UInt32.ofNat m.sp]).flatMap wordBytes ++
          m.memory.arena.getBytes m.memory.start m.memory.usedBytes)
      else .error (.corrupt .valueTooLarge)
        ((frontOf m ++ if m.ip < 4294967296 then [UInt32.ofNat m.ip] else []).flatMap
          wordBytes) := by
  have hcount : m.registers.named.size < 4294967296 := (by decide : Root.count < 4294967296)
  unfold writeMachine
  refine (bind_of_ok rfl).trans ?_
  refine (bind_of_ok (putNumber_of_lt hused)).trans ?_
  refine (bind_of_ok (putNumber_of_lt hcount)).trans ?_
  refine (bind_of_ok rfl).trans ?_
  by_cases hip : m.ip < 4294967296
  · refine (bind_of_ok (putNumber_of_lt hip)).trans ?_
    by_cases hsp : m.sp < 4294967296
    · refine (bind_of_ok (putNumber_of_lt hsp)).trans ?_
      rw [if_pos ⟨hip, hsp⟩]
      exact congrArg (EStateM.Result.ok ()) (by simp [frontOf])
    · refine (bind_of_error (putNumber_of_le (Nat.not_lt.1 hsp))).trans ?_
      rw [if_neg fun h => hsp h.2, if_pos hip]
      simp [frontOf]
  · refine (bind_of_error (putNumber_of_le (Nat.not_lt.1 hip))).trans ?_
    rw [if_neg fun h => hip h.1, if_neg hip]
    simp [frontOf]

/-- A machine with too many objects is not written. -/
theorem writeMachine_of_le (hused : 4294967296 ≤ m.memory.usedBytes) :
    ∃ out, writeMachine m [] = .error (.corrupt .valueTooLarge) out := by
  unfold writeMachine
  exact ⟨_, (bind_of_ok rfl).trans (bind_of_error (putNumber_of_le hused))⟩

theorem writeMachine_eq_ok (h : writeMachine m [] = .ok () bytes) :
    ∃ size count ip sp : UInt32, size.toNat = m.memory.usedBytes ∧ count.toNat = Root.count ∧
      ip.toNat = m.ip ∧ sp.toNat = m.sp ∧
      bytes = ([magic₁, magic₂, majorVersion, minorVersion, 0, size, count] ++
        m.registers.named.toList.map Value.encode ++ [ip, sp]).flatMap wordBytes ++
        m.memory.arena.getBytes m.memory.start m.memory.usedBytes := by
  have hword : ∀ {n : Nat}, n < 4294967296 → (UInt32.ofNat n).toNat = n := by
    intro n hn
    rw [UInt32.toNat_ofNat']
    omega
  rcases Nat.lt_or_ge m.memory.usedBytes 4294967296 with hused | hused
  · rw [writeMachine_apply hused] at h
    split at h
    · next hfits =>
      cases h
      exact ⟨_, _, _, _, hword hused, hword (by decide : Root.count < 4294967296), hword hfits.1,
        hword hfits.2, rfl⟩
    · cases h
  · obtain ⟨out, herror⟩ := writeMachine_of_le hused
    cases herror.symm.trans h

/-- A heap always fits the header. -/
theorem usedBytes_lt (hm : m.WellFormed) : m.memory.usedBytes < 4294967296 := by
  obtain ⟨-, -, hcapacity⟩ := hm.memory.capacity_bounds
  have hfree := hm.memory.free_le
  simp only [limit] at hfree
  simp only [usedBytes]
  omega

theorem exists_writeMachine (hm : m.WellFormed) (hip : m.ip < 4294967296)
    (hsp : m.sp < 4294967296) : ∃ bytes, writeMachine m [] = .ok () bytes :=
  ⟨_, (writeMachine_apply (usedBytes_lt hm)).trans (if_pos ⟨hip, hsp⟩)⟩

end Writing

/-- The machine `l` was read from an image of `m`. -/
structure Restores (m l : Machine) (settings : Settings) : Prop where
  named : l.registers.named = m.registers.named
  scratch : l.registers.scratch = #[]
  ip : l.ip = m.ip
  sp : l.sp = m.sp
  objects : m.memory.SameObjects l.memory
  upper : l.memory.upper = false
  settings : l.memory.settings = settings

/-- **Reading what was written.** Marks and hashes may be anything. -/
theorem read_writeMachine {m : Machine} (hm : m.Verified) (hlower : m.memory.upper = false)
    {bytes : List UInt8} (hbytes : writeMachine m [] = .ok () bytes) {settings : Settings}
    (hvalid : settings.validate = .ok ()) (hle : m.memory.usedBytes ≤ settings.semispaceSize) :
    ∃ l, read settings bytes = (.ok l, []) ∧ Restores m l settings := by
  obtain ⟨size, count, ip, sp, hsize, hcount, hip, hsp, rfl⟩ := writeMachine_eq_ok hbytes
  have hstart : m.memory.start = 0 := by simp [start, hlower]
  have hused : m.memory.usedBytes = m.memory.free := by rw [usedBytes, hstart, Nat.sub_zero]
  have hlength : (m.memory.arena.getBytes m.memory.start m.memory.usedBytes).length =
      m.memory.usedBytes := by
    simp [Arena.getBytes]
  let l := machineOf settings (m.registers.named.toList.map Value.encode) ip sp
    (m.memory.arena.getBytes m.memory.start m.memory.usedBytes)
  have hrestores : Restores m l settings := by
    refine ⟨?_, rfl, hip, hsp, ⟨?_, ?_, ?_⟩, rfl, rfl⟩
    · refine Vector.ext fun i hi => ?_
      simp [l, machineOf]
    · rw [hstart]
      rfl
    · exact hlength.trans hused
    · intro i hlow hhigh
      show (Arena.setBytes _ 0 _).get i = _
      rw [Arena.get_setBytes, if_pos (by omega)]
      simp [Arena.getBytes, hstart, hused, hhigh]
  have hverify : l.verify = .ok () :=
    (verify_eq_ok_iff (Nat.zero_le _)).2 (hm.congr hrestores.objects hrestores.named)
  refine ⟨l, ?_, hrestores⟩
  have hread := readMachine_of_parts [] hvalid (by simp) hcount
    (hsize.trans hlength.symm) (hlength.symm ▸ hle) hverify
  unfold read EStateM.run
  rw [hread]

end Image

/-! ## Images of any origin -/

/-- **Accepted images.** Of every accepted image the objects tile the memory, and every class word,
field and register is an integer or the header of an object. Marks and hashes are taken as they
come; if no object is marked and hashes have 30 bits, and only then, the machine is well-formed, and
a collection succeeds and keeps everything that the registers reach. -/
theorem accepted_image_collectable {settings : Settings} {bytes : List UInt8} {m : Machine}
    {events : List Event} (hread : Image.read settings bytes = (.ok m, events)) :
    m.Verified ∧ (m.WellFormed ↔ m.memory.Unspoiled) ∧
      (m.memory.Unspoiled → ∃ φ m', collectGarbage m = .ok () m' ∧ m'.WellFormed ∧
        m.Isomorphism φ m' #[] #[]) := by
  obtain ⟨r, hmachine⟩ : ∃ r, Image.readMachine settings { rest := bytes } = .ok m r := by
    unfold Image.read EStateM.run at hread
    cases hmachine : Image.readMachine settings { rest := bytes } with
    | ok m' r =>
      rw [hmachine] at hread
      cases hread
      exact ⟨r, rfl⟩
    | error e r =>
      rw [hmachine] at hread
      cases hread
  obtain ⟨roots, ip, sp, objects, rfl, hsettings, hlength, hverify⟩ :=
    Image.readMachine_eq_ok hmachine
  have hverified := (verify_eq_ok_iff (Nat.zero_le _)).1 hverify
  have hfree : (Image.memoryWith (Memory.empty settings) objects).free ≤
      (Image.memoryWith (Memory.empty settings) objects).limit := by
    show objects.length ≤ 0 + settings.semispaceSize
    rwa [Nat.zero_add]
  have hiff := hverified.wellFormed_iff hsettings hfree rfl
  exact ⟨hverified, hiff, fun hunspoiled => (hiff.2 hunspoiled).collected⟩

/-- The theorem applies to the image of a machine of two objects. -/
theorem accepted_image_collectable_pairOfObjects :
    ∃ bytes m, Image.writeMachine (Machine.empty pairOfObjects) [] = .ok () bytes ∧
      Image.read {} bytes = (.ok m, []) ∧ m.memory.Unspoiled ∧ m.WellFormed ∧
      ∃ φ m', collectGarbage m = .ok () m' ∧ m'.WellFormed ∧ m.Isomorphism φ m' #[] #[] := by
  have hm := wellFormed_empty_pairOfObjects
  obtain ⟨bytes, hbytes⟩ := Image.exists_writeMachine hm (by decide) (by decide)
  have hvalid : ({} : Settings).validate = .ok () := rfl
  obtain ⟨l, hread, hrestores⟩ := Image.read_writeMachine hm.verified rfl hbytes hvalid (by decide)
  obtain ⟨-, hiff, hcollect⟩ := accepted_image_collectable hread
  have hunspoiled := hm.unspoiled.congr hrestores.objects hm.memory.tiled
  exact ⟨bytes, l, hbytes, hread, hunspoiled, hiff.2 hunspoiled, hcollect hunspoiled⟩

end Smalltalk
