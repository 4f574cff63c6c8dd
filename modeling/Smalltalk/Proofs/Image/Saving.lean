import Mathlib
import Smalltalk.CommandLine.Basic
import Smalltalk.Proofs.Image.RoundTrip
import Smalltalk.Proofs.Running

/-!
# Saving to a file

A save opens the file before it looks at the machine. Opening empties the file, so a machine that
turns out to be in the middle of something has its old image destroyed all the same. A number that
does not fit its word is found out later still, when the registers are in the file already. What is
never touched are all other files, and everything if the file cannot be opened.

## Main definitions

* `Files.Opens`: a path leads to a place that can be written to

## Main results

* `Files.Opens.read_put`: what is read at a path that has been written to
* `Image.written_of_error`, `Image.attempt_of_wellFormed`: how far a machine is written
* `failed_save_destroys_the_old_image`: when a save fails, and what the file has afterwards
-/

namespace Smalltalk

/-! ## Files that are written -/

namespace Files

variable {files files' : Files} {l l' : Location} {bytes bytes' : List UInt8} {path : String}

theorem get?_put_of_ne (h : l' ≠ l) : (files.put l bytes).get? l' = files.get? l' := by
  have hlookup : ∀ es : List (Location × List UInt8),
      (es.map fun e => if e.1 = l then (l, bytes) else e).lookup l' = es.lookup l' := by
    intro es
    induction es with
    | nil => rfl
    | cons e es ih =>
      obtain ⟨k, old⟩ := e
      rw [List.map_cons]
      by_cases hk : k = l
      · simp only [hk, if_true, List.lookup_cons, beq_false_of_ne h, ih]
      · simp only [hk, if_false, List.lookup_cons, ih]
  unfold put get?
  by_cases hnull' : l' = .nullDevice
  · rw [if_pos hnull', if_pos hnull']
  rw [if_neg hnull', if_neg hnull']
  split
  · rfl
  split
  · exact hlookup files.entries
  · simp [List.lookup_append, List.lookup_cons, beq_false_of_ne h]

/-- Whatever is written to the null device is gone. -/
theorem get?_put_self : (files.put l bytes).get? l =
    some (if l = .nullDevice then [] else bytes) := by
  have hlookup : ∀ es : List (Location × List UInt8), es.any (·.1 = l) →
      (es.map fun e => if e.1 = l then (l, bytes) else e).lookup l = some bytes := by
    intro es hany
    induction es with
    | nil => cases hany
    | cons e es ih =>
      obtain ⟨k, old⟩ := e
      rw [List.map_cons]
      by_cases hk : k = l
      · simp [hk]
      · simp only [hk, if_false, List.lookup_cons, beq_false_of_ne (Ne.symm hk)]
        exact ih (by simpa [hk] using hany)
  unfold put get?
  by_cases hnull : l = .nullDevice
  · rw [if_pos hnull, if_pos hnull]
  rw [if_neg hnull, if_neg hnull, if_neg hnull]
  split
  next hany => exact hlookup files.entries hany
  next hany =>
    have hnone : files.entries.lookup l = none := by
      refine List.lookup_eq_none_iff.2 fun e he => bne_iff_ne.2 fun hl => hany ?_
      exact List.any_eq_true.2 ⟨e, he, by simpa using hl.symm⟩
    simp [List.lookup_append, hnone]

@[simp] theorem directories_put : (files.put l bytes).directories = files.directories := by
  unfold put
  split
  · rfl
  · split <;> rfl

/-- Where a path leads does not depend on the contents of files. -/
theorem walk_put {names : List String} {d : Directory} {t : Target}
    (h : files.walk d names = .ok t) : (files.put l bytes).walk d names = .ok t := by
  induction names generalizing d with
  | nil => exact h
  | cons name names ih =>
    rw [walk] at h ⊢
    rw [directories_put]
    by_cases hhere : name = "."
    · rw [if_pos hhere] at h ⊢
      exact ih h
    rw [if_neg hhere] at h ⊢
    by_cases hup : name = ".."
    · rw [if_pos hup] at h ⊢
      exact ih h
    rw [if_neg hup] at h ⊢
    by_cases hdown : files.directories.contains (d.inside name)
    · rw [if_pos hdown] at h ⊢
      exact ih h
    rw [if_neg hdown] at h ⊢
    by_cases hlast : names.isEmpty
    · rwa [if_pos hlast] at h ⊢
    rw [if_neg hlast] at h
    -- whatever is wrong with the name, the path leads nowhere
    split at h
    · cases h
    · split at h <;> cases h

/-- A path leads to a place that can be written to. -/
structure Opens (files : Files) (path : String) (l : Location) : Prop where
  resolve : files.resolve path = .ok (.file l)
  isOpen : (Path.ofString path).isClosed = false
  short : l.name.utf8ByteSize ≤ Path.longestName

theorem create_eq_ok (h : files.create path = .ok (l, files')) :
    files.Opens path l ∧ files' = files.put l [] := by
  obtain ⟨t, hresolve, h⟩ := except_bind_eq_ok h
  cases t with
  | directory d => cases h
  | file l₁ =>
    simp only at h
    split at h
    · cases h
    split at h
    · cases h
    · cases h
      exact ⟨⟨hresolve, Bool.eq_false_iff.2 ‹_›, Nat.le_of_not_lt ‹_›⟩, rfl⟩

theorem Opens.create_eq (h : files.Opens path l) : files.create path = .ok (l, files.put l []) := by
  unfold create
  simp only [h.resolve, bind, Except.bind, h.isOpen, if_neg (Nat.not_lt.2 h.short)]
  rfl

theorem Opens.put (h : files.Opens path l) : (files.put l' bytes).Opens path l := by
  refine ⟨?_, h.isOpen, h.short⟩
  have hresolve := h.resolve
  unfold Files.resolve at hresolve ⊢
  by_cases hempty : path = ""
  · rw [if_pos hempty] at hresolve
    cases hresolve
  rw [if_neg hempty] at hresolve ⊢
  by_cases hlong : path.utf8ByteSize > Path.longestPath
  · rw [if_pos hlong] at hresolve
    cases hresolve
  rw [if_neg hlong] at hresolve ⊢
  exact walk_put hresolve

theorem Opens.read_eq (h : files.Opens path l) (hget : files.get? l = some bytes) :
    files.read path = .ok bytes := by
  unfold Files.read
  simp only [h.resolve, bind, Except.bind, if_neg (Nat.not_lt.2 h.short), hget, h.isOpen]
  rfl

/-- What has been written can be read. -/
theorem Opens.read_put (h : files.Opens path l) :
    (files.put l bytes).read path = .ok (if l = .nullDevice then [] else bytes) :=
  h.put.read_eq get?_put_self

end Files

/-! ## A save -/

namespace Image

/-- **What is left of a save that fails**: nothing has been written, unless a number did not fit. -/
theorem written_of_error {m : Machine} {e : ImageError} (h : (attempt m).result = .error e)
    (he : e ≠ .corrupt .valueTooLarge) : (attempt m).written = [] := by
  by_cases hidle : Idle m
  · cases hsettle : settle m with
    | error e' m₁ => rw [attempt_of_unsettled hidle hsettle]
    | ok u m₁ =>
      rcases Nat.lt_or_ge m₁.memory.usedBytes 4294967296 with hused | hused
      · have hwritten := writeMachine_apply hused
        split at hwritten
        · rw [attempt_of_ok hidle hsettle hwritten] at h
          cases h
        · rw [attempt_of_error hidle hsettle hwritten] at h
          cases h
          exact absurd rfl he
      · obtain ⟨out, hwritten⟩ := writeMachine_of_le hused
        rw [attempt_of_error hidle hsettle hwritten] at h
        cases h
        exact absurd rfl he
  · obtain ⟨reason, hbusy⟩ := attempt_of_not_idle hidle
    rw [hbusy]

theorem length_flatMap_wordBytes (words : List UInt32) :
    (words.flatMap wordBytes).length = 4 * words.length := by
  induction words with
  | nil => rfl
  | cons w words ih =>
    rw [List.flatMap_cons, List.length_append, ih, List.length_cons, Nat.mul_succ, Nat.add_comm]
    rfl

/-- **Saving a machine in order.** It fails just for a machine in the middle of something, or with a
number that does not fit. In the latter case the registers have been written, and the instruction
pointer too if it fits. -/
theorem attempt_of_wellFormed {m : Machine} (hm : m.WellFormed) :
    ((attempt m).result = .ok () ↔ Idle m ∧ m.ip < 4294967296 ∧ m.sp < 4294967296) ∧
      ((attempt m).result = .error (.corrupt .valueTooLarge) ↔
        Idle m ∧ ¬ (m.ip < 4294967296 ∧ m.sp < 4294967296)) ∧
      ((attempt m).result = .error (.corrupt .valueTooLarge) →
        (attempt m).written.length = if m.ip < 4294967296 then 1172 else 1168) := by
  by_cases hidle : Idle m
  · obtain ⟨φ, m₁, hsettle, hiso, harranged, -⟩ := settle_arranges hm hidle.1
    have hwritten := writeMachine_apply (usedBytes_lt harranged.wellFormed)
    rw [← hiso.ip, ← hiso.sp] at hwritten
    by_cases hfits : m.ip < 4294967296 ∧ m.sp < 4294967296
    · rw [if_pos hfits] at hwritten
      simp [attempt_of_ok hidle hsettle hwritten, hidle, hfits]
    · rw [if_neg hfits] at hwritten
      rw [attempt_of_error hidle hsettle hwritten]
      refine ⟨by simp [hfits], by simp [hidle, hfits], fun _ => ?_⟩
      have hcount : m₁.registers.named.toList.length = 285 := by simp
      rw [length_flatMap_wordBytes, List.length_append, frontOf, List.length_append,
        List.length_map, hcount]
      split <;> simp
  · obtain ⟨reason, hbusy⟩ := attempt_of_not_idle hidle
    simp [hbusy, hidle]

end Image

namespace Shell

variable {s : Shell} {name : String} {l : Location} {files : Files}

/-- A file that cannot be opened keeps what it has. -/
theorem save_of_closed {fe : FileError} (h : s.files.create name = .error fe) :
    save name s = .ok (.error (.file fe)) s := by
  refine (Image.bind_of_ok (rfl : (get : Session Shell) s = .ok s s)).trans ?_
  rw [h]
  rfl

/-- A file that can be opened has what could be written. -/
theorem save_of_create (h : s.files.create name = .ok (l, files)) :
    save name s = .ok (Image.attempt s.machine).result
      { s with
        machine := (Image.attempt s.machine).machine
        files := files.put l (Image.attempt s.machine).written } := by
  refine (Image.bind_of_ok (rfl : (get : Session Shell) s = .ok s s)).trans ?_
  rw [h]
  rfl

end Shell

/-- **A save that fails has destroyed the old image.** A save always ends. If the file cannot be
opened nothing happens. Else other files are left alone, and the file has the image afterwards if
all of it could be written. If the machine is in the middle of something or cannot be collected the
file is empty. If a number does not fit its word, which of a machine in order can be said of the
instruction pointer and the number of operands alone, it has the front of the image. What goes to
the null device is lost. -/
theorem failed_save_destroys_the_old_image (s : Shell) (name : String) :
    ∃ result s', Shell.save name s = .ok result s' ∧
      (∀ fe, s.files.create name = .error fe → result = .error (.file fe) ∧ s' = s) ∧
      ∀ l, s.files.Opens name l →
        (∀ l' ≠ l, s'.files.get? l' = s.files.get? l') ∧
        (result = .ok () → ∃ bytes, Image.write s.machine = .ok bytes s'.machine ∧
          s'.files.read name = .ok (if l = .nullDevice then [] else bytes)) ∧
        (∀ e, result = .error e → e ≠ .corrupt .valueTooLarge → s'.files.read name = .ok []) ∧
        (s.machine.WellFormed →
          (result = .ok () ↔
            Image.Idle s.machine ∧ s.machine.ip < 4294967296 ∧ s.machine.sp < 4294967296) ∧
          (result = .error (.corrupt .valueTooLarge) ↔
            Image.Idle s.machine ∧ ¬ (s.machine.ip < 4294967296 ∧ s.machine.sp < 4294967296)) ∧
          (result = .error (.corrupt .valueTooLarge) → l ≠ .nullDevice →
            ∃ front, s'.files.read name = .ok front ∧
              front.length = if s.machine.ip < 4294967296 then 1172 else 1168)) := by
  cases hcreate : s.files.create name with
  | error fe =>
    refine ⟨_, s, Shell.save_of_closed hcreate, ?_, fun l hl => ?_⟩
    · rintro fe' h
      cases h
      exact ⟨rfl, rfl⟩
    · cases hcreate.symm.trans hl.create_eq
  | ok opened =>
    obtain ⟨l₁, files⟩ := opened
    obtain ⟨hopens, rfl⟩ := Files.create_eq_ok hcreate
    refine ⟨_, _, Shell.save_of_create hcreate, ?_, fun l hl => ?_⟩
    · intro fe h
      cases h
    obtain rfl : l₁ = l := by
      cases hopens.resolve.symm.trans hl.resolve
      rfl
    have hread : ((s.files.put l₁ []).put l₁ (Image.attempt s.machine).written).read name =
        .ok (if l₁ = .nullDevice then [] else (Image.attempt s.machine).written) :=
      hl.put.read_put
    refine ⟨fun l' hne => ?_, fun hok => ?_, fun e herror he => ?_, fun hm => ?_⟩
    · exact (Files.get?_put_of_ne hne).trans (Files.get?_put_of_ne hne)
    · refine ⟨(Image.attempt s.machine).written, ?_, hread⟩
      rw [Image.write, hok]
    · rw [hread, Image.written_of_error herror he, ite_self]
    · obtain ⟨hwhole, htorn, hlength⟩ := Image.attempt_of_wellFormed hm
      refine ⟨hwhole, htorn, fun herror hnull => ⟨_, hread, ?_⟩⟩
      rw [if_neg hnull]
      exact hlength herror

/-- A file of three bytes. -/
def oldImage : Files := Files.ofList [("i", [1, 2, 3])]

theorem opens_oldImage : oldImage.Opens "i" ⟨.working, "i"⟩ :=
  ⟨by cbv, by decide +kernel, by decide +kernel⟩

/-- A machine of two objects that holds a number besides is busy. It is not saved, and its old image
is gone. -/
theorem failed_save_destroys_the_old_image_pairOfObjects :
    let s : Shell := ⟨(Machine.empty pairOfObjects).withScratch #[.ofByte 5], oldImage, ""⟩
    s.machine.WellFormed ∧ s.files.read "i" = .ok [1, 2, 3] ∧
      ∃ s', Shell.save "i" s = .ok (.error (.busy .heldValues)) s' ∧
        s'.files.read "i" = .ok [] := by
  intro s
  have hm : s.machine.WellFormed := by
    refine ⟨wellFormed_empty_pairOfObjects.memory,
      wellFormed_empty_pairOfObjects.registers.named, ?_⟩
    intro v hv
    obtain rfl := Array.mem_singleton.1 hv
    exact .small _
  obtain ⟨result, s', hsave, -, hopened⟩ := failed_save_destroys_the_old_image s "i"
  obtain ⟨-, -, hemptied, -⟩ := hopened _ opens_oldImage
  have hbusy : result = .error (.busy .heldValues) := by
    cases hsave.symm.trans (Shell.save_of_create opens_oldImage.create_eq)
    rfl
  subst hbusy
  exact ⟨hm, opens_oldImage.read_eq rfl, s', hsave, hemptied _ rfl (by decide)⟩

end Smalltalk
