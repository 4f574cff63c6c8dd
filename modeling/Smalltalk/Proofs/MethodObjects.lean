import Smalltalk.Proofs.Materialization

/-!
# Methods that are read back

The object of a method is built field by field, in a register, with a collection possible before
each step. Every step fills one field, and what the other fields have is read back as before. So in
the end all of them describe the draft and the source.

## Main definitions

* `Machine.Describes`: what the fields of a method have
* `Machine.Fills`: steps that fill some fields of the method that is being built

## Main results

* `Machine.Fills.andThen`: steps are put one after the other
* `Machine.fills_method`: all fields but the class are filled
* `Machine.Enters.closed`: what objects refer to is kept with them
* `Machine.buildMethod_reads_back`: a method is read back from its object
* `Machine.method_built_on_disordered_machines`: what goes wrong if the table is not in order
-/

namespace Smalltalk

open Memory Machine Layout

namespace Machine

/-! ## Words -/

section Words

variable {m m₁ m₂ : Machine} {cls v : Value} {σ : Renaming} {a : Address} {i : Nat} {w : UInt32}
  {words : List UInt32}

/-- A word of a new object is stored to. -/
theorem Adds.setWord (h : m.Adds cls σ a m₁)
    (hset : onMemory (Memory.setWord (.ref a) i w) m₁ = .ok () m₂) :
    m.Adds cls σ a m₂ ∧ m₂.memory.size (.ref a) = m₁.memory.size (.ref a) ∧
      m₂.memory.getWord (.ref a) i = .ok w ∧
      ∀ j ≠ i, m₂.memory.getWord (.ref a) j = m₁.memory.getWord (.ref a) j := by
  have hm₁ := h.after.memory
  obtain ⟨memory, hstore, rfl⟩ := onMemory_eq_ok hset
  have hwell := (storedData_setWord hm₁ (.ref h.mem) hstore).wellFormed hm₁
  obtain ⟨j, hj, rfl⟩ := writeAt_eq_ok hstore
  obtain ⟨_, heq, -, hk, hi, hplace⟩ := element_eq_ok hm₁ (.ref h.mem) hj
  obtain rfl := Value.ref.inj heq
  obtain rfl : j = a.offset + headerBytes + i * 4 := hplace
  have hs := stored_element h.mem (by rw [hk]; rfl) hi w
  have hadds := h.store hs (.inl (Nat.le_add_right _ _)) hwell
  have hkind := (hs.kindAt hm₁ h.mem).trans hk
  have hcount := hs.countAt hm₁ h.mem
  refine ⟨hadds, ?_, ?_, fun j hj => ?_⟩
  · rw [size_ref_of_mem hwell hadds.mem, size_ref_of_mem hm₁ h.mem, hcount]
  · rw [getWord_of_mem hwell hadds.mem, if_neg (not_not.2 hkind),
      if_neg (Nat.not_le.2 (hcount.symm ▸ hi))]
    exact congrArg Except.ok ((wordElementAt_writeWord _ _ _ _ _).trans (if_pos rfl))
  · rw [getWord_of_mem hwell hadds.mem, getWord_of_mem hm₁ h.mem, hkind, hk, hcount,
      wordElementAt_writeWord, if_neg hj]

/-- Words are put into a new object. -/
theorem Adds.fillWords (h : m.Adds cls σ a m₁) (hrun : fillWords (.ref a) i words m₁ = .ok () m₂) :
    m.Adds cls σ a m₂ ∧ m₂.memory.size (.ref a) = m₁.memory.size (.ref a) ∧
      (∀ k x, words[k]? = some x → m₂.memory.getWord (.ref a) (i + k) = .ok x) ∧
      ∀ j < i, m₂.memory.getWord (.ref a) j = m₁.memory.getWord (.ref a) j := by
  induction words generalizing m₁ i with
  | nil =>
    cases hrun
    exact ⟨h, rfl, fun k x hk => (by cases hk), fun _ _ => rfl⟩
  | cons w words ih =>
    obtain ⟨_, m₃, hset, hrun⟩ := bind_eq_ok hrun
    obtain ⟨hadds, hsize, hword, hothers⟩ := h.setWord hset
    obtain ⟨hadds', hsize', hwords, hbefore⟩ := ih hadds hrun
    refine ⟨hadds', hsize'.trans hsize, fun k x hk => ?_, fun j hj => ?_⟩
    · cases k with
      | zero =>
        obtain rfl := Option.some.inj hk
        exact (hbefore i (Nat.lt_succ_self i)).trans hword
      | succ k =>
        rw [show i + (k + 1) = i + 1 + k by omega]
        exact hwords k x hk
    · exact (hbefore j (Nat.lt_succ_of_lt hj)).trans (hothers j hj.ne)

/-- **Making an object of words.** -/
theorem newWords_enters (hm : m.WellFormed) (hs : m.SoundTable) (h : newWords words m = .ok v m₁) :
    ∃ σ, m.Enters untouched [] σ m₁ ∧ m₁.memory.Holds v ∧
      m₁.classOf v = .ok (m₁.registers.get .wordArrayClass) ∧
      m₁.memory.size v = .ok words.length ∧
      ∀ i w, words[i]? = some w → m₁.memory.getWord v i = .ok w := by
  unfold newWords at h
  rw [register_bind] at h
  obtain ⟨object, m₂, hcreate, h⟩ := bind_eq_ok h
  obtain ⟨σ, a, rfl, hcreated⟩ := createObject_eq_ok hm (hm.registers.get .wordArrayClass) hcreate
  obtain ⟨_, m₃, hfill, h⟩ := bind_eq_ok h
  cases h
  obtain ⟨hadds, hsize, hwords, -⟩ := (hcreated.adds hm).fillWords hfill
  refine ⟨σ, hadds.enters hs, .ref hadds.mem, hadds.hasClass (by decide),
    hsize.trans hcreated.length, fun i w hw => ?_⟩
  rw [← hwords i w hw, Nat.zero_add]

end Words

/-! ## Fields of methods -/

/-- The object is made of words that are decoded to instructions. -/
def IsCode (m : Machine) (code : List Instruction) (v : Value) : Prop :=
  m.classOf v = .ok (m.registers.get .wordArrayClass) ∧ m.memory.size v = .ok code.length ∧
    ∀ i instruction, code[i]? = some instruction →
      ∃ w, m.memory.getWord v i = .ok w ∧ Instruction.decode w = .ok instruction

/-- What a field of a method has, for a source and a draft. Its class is not part of the draft. -/
inductive Describes (busy : Nat → Prop) (source : String) (draft : Draft) (m : Machine) :
    Nat → Value → Prop
  | text {v : Value} (hbytes : m.memory.bytes v = .ok (Text.utf8 source))
      (hclass : m.classOf v = .ok (m.registers.get .stringClass)) :
      Describes busy source draft m Method.text v
  | selector {v : Value} (h : m.IsSymbol draft.selector v) :
      Describes busy source draft m Method.selector v
  | code {v : Value} (h : m.IsCode draft.code.toList v) :
      Describes busy source draft m Method.code v
  | noLiterals (h : draft.literals.toList = []) :
      Describes busy source draft m Method.literals m.nil
  | literals {a : Address} (hsome : draft.literals.toList ≠ []) (hidle : ¬ busy a.offset)
      (hclass : m.classOf (.ref a) = .ok (m.registers.get .arrayClass))
      (hsize : m.memory.size (.ref a) = .ok draft.literals.toList.length)
      (hget : ∀ i entry, draft.literals.toList[i]? = some entry →
        ∃ v, m.memory.getPtr (.ref a) i = .ok v ∧ m.DenotesEntry busy entry v) :
      Describes busy source draft m Method.literals (.ref a)
  | argSize {v : Value} (h : Value.ofNat? draft.argSize = some v) :
      Describes busy source draft m Method.argSize v
  | tempSize {v : Value} (h : Value.ofNat? draft.tempSize = some v) :
      Describes busy source draft m Method.tempSize v
  | stackSize {v : Value} (h : Value.ofNat? draft.stackSize = some v) :
      Describes busy source draft m Method.stackSize v

section Fields

variable {T : Nat → Nat → Prop} {K : List Root} {σ : Renaming} {m m₁ : Machine} {v w : Value}
  {busy busy' : Nat → Prop} {source : String} {draft : Draft} {field n : Nat}

theorem IsCode.edits (he : m.Edits T K σ m₁) {code : List Instruction} (h : m.IsCode code v)
    (hvw : Value.Renames σ v w) : m₁.IsCode code w := by
  obtain ⟨hclass, hsize, hwords⟩ := h
  refine ⟨he.hasClass (by decide) hvw hclass, (he.length hvw).trans hsize,
    fun i instruction hi => ?_⟩
  obtain ⟨x, hx, hdecode⟩ := hwords i instruction hi
  exact ⟨x, he.getWord hvw hx, hdecode⟩

/-- A number is not renamed. -/
theorem renames_ofNat? (h : Value.ofNat? n = some v) (hvw : Value.Renames σ v w) : w = v := by
  rcases ofInt?_cases n with hnone | ⟨k, hsmall⟩
  · cases h.symm.trans hnone
  · obtain rfl := Option.some.inj (h.symm.trans hsmall)
    cases hvw
    rfl

/-- **Fields are read back later**, if only objects that are busy have been stored to. -/
theorem Describes.enters (h : m.Enters T K σ m₁) (hT : ∀ x i, T x i → busy x)
    (htable : ∀ x, m.IsTableAt x → busy x) (hbusy : ∀ x x', σ x x' → busy' x' → busy x)
    (hv : m.Describes busy source draft field v) (hvw : Value.Renames σ v w) :
    m₁.Describes busy' source draft field w := by
  cases hv with
  | text hbytes hclass => exact .text (h.bytes hvw hbytes) (h.hasClass (by decide) hvw hclass)
  | selector hs => exact .selector (hs.enters h hvw)
  | code hc => exact .code (hc.edits h.toEdits hvw)
  | noLiterals hnone =>
    rw [h.register_eq (r := .nil) (by decide) hvw]
    exact .noLiterals hnone
  | @literals a hsome hidle hclass hsize hget =>
    obtain ⟨b, rfl, hab⟩ := hvw.of_ref
    refine .literals hsome (mt (hbusy _ _ hab) hidle) (h.hasClass (by decide) hvw hclass)
      ((h.length hvw).trans hsize) fun i entry hentry => ?_
    obtain ⟨u, hu, hdenotes⟩ := hget i entry hentry
    obtain ⟨u', hu', hren⟩ := h.getPtr hvw hu fun c hc => by
      obtain rfl := Value.ref.inj hc
      rintro (hc | hc)
      · exact hidle (htable _ hc)
      · exact hidle (hT _ _ hc)
    exact ⟨u', hu', hdenotes.enters h hT htable hbusy hren⟩
  | argSize hn => exact renames_ofNat? hn hvw ▸ .argSize hn
  | tempSize hn => exact renames_ofNat? hn hvw ▸ .tempSize hn
  | stackSize hn => exact renames_ofNat? hn hvw ▸ .stackSize hn

/-- Values that are held do not matter. -/
theorem Describes.withScratch {scratch : Array Value} (h : m.Describes busy source draft field v) :
    (m.withScratch scratch).Describes busy source draft field v := by
  cases h with
  | text hbytes hclass => exact .text hbytes hclass
  | selector hs => exact .selector hs.withScratch
  | code hc => exact .code hc
  | noLiterals hnone => exact .noLiterals hnone
  | literals hsome hidle hclass hsize hget =>
    refine .literals hsome hidle hclass hsize fun i entry hentry => ?_
    obtain ⟨u, hu, hdenotes⟩ := hget i entry hentry
    exact ⟨u, hu, hdenotes.withScratch⟩
  | argSize hn => exact .argSize hn
  | tempSize hn => exact .tempSize hn
  | stackSize hn => exact .stackSize hn

end Fields

/-! ## Filling the fields -/

/-- The method that is being built is the object at `a`. -/
structure Builds (m : Machine) (a : Address) : Prop where
  wellFormed : m.WellFormed
  sound : m.SoundTable
  register : m.registers.get .compilerMethod = .ref a
  apart : ¬ m.InTable a.offset

/-- The table and the method that is being built are stored to. -/
def busyWith (m : Machine) (a : Address) (x : Nat) : Prop := m.IsTableAt x ∨ x = a.offset

/-- The step fills some fields of the method that is being built, which were nil. -/
def Fills (source : String) (draft : Draft) (fields : List Nat) (act : Exec Unit) : Prop :=
  ∀ ⦃m m₁ : Machine⦄ ⦃a : Address⦄, m.Builds a →
    (∀ field ∈ fields, m.memory.getPtr (.ref a) field = .ok m.nil) → act m = .ok () m₁ →
    ∃ (σ : Renaming) (a' : Address), σ a.offset a'.offset ∧ m₁.Builds a' ∧
      m.Enters (fun x i => x = a.offset ∧ i ∈ fields) [] σ m₁ ∧
      ∀ field ∈ fields, ∃ v, m₁.memory.getPtr (.ref a') field = .ok v ∧
        m₁.Describes (m₁.busyWith a') source draft field v

section Filling

variable {T : Nat → Nat → Prop} {σ : Renaming} {m m₁ : Machine} {v : Value} {a a' : Address}
  {source : String} {draft : Draft} {fields fields' : List Nat} {field : Nat} {act act' : Exec Unit}

theorem Builds.holds (h : m.Builds a) : m.memory.Holds (.ref a) :=
  h.register ▸ h.wellFormed.registers.get .compilerMethod

theorem Builds.withScratch {scratch : Array Value} (h : m.Builds a)
    (hm : (m.withScratch scratch).WellFormed) : (m.withScratch scratch).Builds a :=
  ⟨hm, h.sound.withScratch, h.register, mt inTable_withScratch.1 h.apart⟩

/-- The method stays in its register. -/
theorem Builds.enters (h : m.Builds a) (he : m.Enters T [] σ m₁) :
    ∃ a' : Address, σ a.offset a'.offset ∧ m₁.Builds a' := by
  have hren := he.running .compilerMethod (by decide) (by decide)
  rw [h.register] at hren
  obtain ⟨a', ha', haa'⟩ := hren.of_ref
  exact ⟨a', haa', he.after, he.grows.sound, ha', he.not_inTable haa' h.apart⟩

theorem Enters.busyWith (he : m.Enters T [] σ m₁) (ha : σ a.offset a'.offset) (x x' : Nat)
    (hx : σ x x') (hbusy : m₁.busyWith a' x') : m.busyWith a x := by
  rcases hbusy with hbusy | rfl
  · exact .inl ((he.isTableAt_iff hx).2 hbusy)
  · exact .inr (he.persists.injective _ _ _ hx ha)

/-- **Steps one after the other.** -/
theorem Fills.andThen (h : Fills source draft fields act) (h' : Fills source draft fields' act')
    (hdisjoint : ∀ field ∈ fields, field ∉ fields') :
    Fills source draft (fields ++ fields') (do act; act') := by
  intro m m₂ a hbuilds hnil hrun
  obtain ⟨_, m₁, hfirst, hsecond⟩ := bind_eq_ok hrun
  obtain ⟨σ, b, hab, hbuilds₁, he, hfilled⟩ := h hbuilds
    (fun field hfield => hnil field (List.mem_append_left _ hfield)) hfirst
  have hnil₁ : ∀ field ∈ fields', m₁.memory.getPtr (.ref b) field = .ok m₁.nil := by
    intro field hfield
    obtain ⟨u, hu, hren⟩ := he.getPtr (.ref hab) (hnil field (List.mem_append_right _ hfield))
      fun c hc => by
        obtain rfl := Value.ref.inj hc
        rintro (hc | hc)
        · exact hbuilds.apart (.inr (.inl hc))
        · exact hdisjoint field hc.2 hfield
    rw [hu, (he.eq_nil_iff hren).1 rfl]
  obtain ⟨τ, a', hba', hbuilds₂, he', hfilled'⟩ := h' hbuilds₁ hnil₁ hsecond
  refine ⟨σ.followedBy τ, a', ⟨_, hab, hba'⟩, hbuilds₂, ?_, fun field hfield => ?_⟩
  · refine he.trans he' (fun x i hx => ⟨hx.1, List.mem_append_left _ hx.2⟩) (fun x x' i hx hi => ?_)
      fun x i hx => hx.1 ▸ hbuilds.apart
    obtain ⟨rfl, hi⟩ := hi
    exact ⟨he.persists.injective _ _ _ hx hab, List.mem_append_right _ hi⟩
  · rcases List.mem_append.1 hfield with hfield | hfield
    · obtain ⟨u, hu, hdescribes⟩ := hfilled field hfield
      obtain ⟨u', hu', hren⟩ := he'.getPtr (.ref hba') hu fun c hc => by
        obtain rfl := Value.ref.inj hc
        rintro (hc | hc)
        · exact hbuilds₁.apart (.inr (.inl hc))
        · exact hdisjoint field hfield hc.2
      exact ⟨u', hu', hdescribes.enters he' (fun _ _ hx => .inr hx.1) (fun _ => .inl)
        (he'.busyWith hba') hren⟩
    · exact hfilled' field hfield

/-- A field of the method is stored to. -/
theorem Builds.setField (h : m.Builds a) (hv : m.memory.Holds v)
    (hset : setMethodField field v m = .ok () m₁) :
    m₁.Builds a ∧ m.Enters (fun x i => x = a.offset ∧ i ∈ [field]) [] m.memory.unmoved m₁ ∧
      m₁.memory.getPtr (.ref a) field = .ok v := by
  have hset : Machine.setPtr (.ref a) field v m = .ok () m₁ := h.register ▸ hset
  have hstore := Enters.store (K := []) h.wellFormed h.sound h.holds hv
    (fun b hb => Value.ref.inj hb ▸ h.apart) hset
  obtain ⟨a', haa', hbuilds⟩ := h.enters hstore
  obtain rfl := Address.ext haa'.2
  refine ⟨hbuilds, hstore.mono ?_ (fun _ _ hx => hx.1 ▸ h.apart) (List.Subset.refl _), ?_⟩
  · rintro _ _ ⟨⟨b, hb, rfl⟩, rfl⟩
    exact ⟨by rw [Value.ref.inj hb], List.mem_singleton_self _⟩
  · rw [getPtr_after_setPtr h.wellFormed h.holds hv hset h.holds, if_pos ⟨rfl, rfl⟩]

/-- A field is filled with an object that was made for it. -/
theorem fills_field {make : Exec Value}
    (hmake : ∀ {m m₁ : Machine} {v : Value}, m.WellFormed → m.SoundTable → make m = .ok v m₁ →
      ∃ σ : Renaming, m.Enters untouched [] σ m₁ ∧ m₁.memory.Holds v ∧
        ∀ busy, m₁.Describes busy source draft field v) :
    Fills source draft [field] (do setMethodField field (← make)) := by
  intro m m₂ a hbuilds _ hrun
  obtain ⟨v, m₁, hv, hrun⟩ := bind_eq_ok hrun
  obtain ⟨σ, he, hheld, hdescribes⟩ := hmake hbuilds.wellFormed hbuilds.sound hv
  obtain ⟨b, hab, hbuilds₁⟩ := hbuilds.enters he
  obtain ⟨hbuilds₂, hstore, hget⟩ := hbuilds₁.setField hheld hrun
  refine ⟨σ.followedBy m₁.memory.unmoved, b, ⟨_, hab, hbuilds₁.holds.mem, rfl⟩, hbuilds₂, ?_, ?_⟩
  · refine he.trans hstore (fun _ _ hx => absurd hx id) (fun x x' i hx hi => ?_)
      fun _ _ hx => hx.1 ▸ hbuilds.apart
    obtain ⟨rfl, hi⟩ := hi
    exact ⟨he.persists.injective _ _ _ hx hab, hi⟩
  · intro field' hfield
    obtain rfl := List.mem_singleton.1 hfield
    exact ⟨v, hget, (hdescribes (m₁.busyWith b)).enters hstore (fun _ _ hx => .inr hx.1)
      (fun _ => .inl) (hstore.busyWith ⟨hbuilds₁.holds.mem, rfl⟩) (.unmoved hheld)⟩

theorem fills_text : Fills source draft [Method.text]
    (do setMethodField Method.text (← newString source)) := by
  refine fills_field fun hm hs h => ?_
  obtain ⟨σ, he, hheld, hbytes, hclass⟩ := newBytes_enters hm hs (by decide) h
  exact ⟨σ, he, hheld, fun _ => .text hbytes hclass⟩

theorem fills_selector : Fills source draft [Method.selector]
    (do setMethodField Method.selector (← newSymbol draft.selector)) := by
  refine fills_field fun hm hs h => ?_
  obtain ⟨σ, he, hheld, hsymbol⟩ := newSymbol_enters hm hs h
  exact ⟨σ, he, hheld, fun _ => .selector hsymbol⟩

/-- Words are decoded to the instructions they were encoded from. -/
theorem fills_code : Fills source draft [Method.code]
    (do setMethodField Method.code (← newWords (draft.code.toList.map Instruction.encode))) := by
  refine fills_field fun hm hs h => ?_
  obtain ⟨σ, he, hheld, hclass, hsize, hwords⟩ := newWords_enters hm hs h
  refine ⟨σ, he, hheld, fun _ => .code ⟨hclass, ?_, fun i instruction hi => ?_⟩⟩
  · rw [hsize, List.length_map]
  · refine ⟨instruction.encode, hwords i _ ?_, Instruction.decode_encode instruction⟩
    rw [List.getElem?_map, hi]
    rfl

/-- A count is a number of the machine. -/
theorem fills_count {n : Nat}
    (hdescribes : ∀ {busy} {m : Machine} {v : Value}, Value.ofNat? n = some v →
      m.Describes busy source draft field v) :
    Fills source draft [field] (setMethodCount field n) := by
  refine fills_field fun {m m₁ v} hm hs h => ?_
  obtain ⟨hsmall, rfl⟩ := read_eq_ok h
  have hv : Value.ofNat? n = some v := by
    unfold smallValue at hsmall
    cases hn : Value.ofNat? n with
    | none =>
      rw [hn] at hsmall
      cases hsmall
    | some u =>
      rw [hn] at hsmall
      rw [Except.ok.inj hsmall]
  refine ⟨_, .of_edits hs (.refl hm) fun _ _ hx => absurd hx id, ?_, fun _ => hdescribes hv⟩
  rcases ofInt?_cases n with hnone | ⟨k, hk⟩
  · cases hv.symm.trans hnone
  · obtain rfl := Option.some.inj (hv.symm.trans hk)
    exact .small k

/-- The literals are found again in the method. -/
theorem locates_literals :
    Locates (do getPtr (← register .compilerMethod) Method.literals) fun m l =>
      ∃ a : Address, m.Builds a ∧ a ≠ l ∧
        m.memory.getPtr (.ref a) Method.literals = .ok (.ref l) where
  finds := by
    rintro m l ⟨a, hbuilds, -, hget⟩
    rw [register_bind, hbuilds.register]
    unfold Machine.getPtr Machine.read
    dsimp only
    rw [hget]
  again := by
    rintro T σ m m₁ l ⟨a, hbuilds, hne, hget⟩ he hT
    obtain ⟨a', haa', hbuilds'⟩ := hbuilds.enters he
    obtain ⟨u, hu, hren⟩ := he.getPtr (.ref haa') hget fun b hb => by
      obtain rfl := Value.ref.inj hb
      rintro (hc | hc)
      · exact hbuilds.apart (.inr (.inl hc))
      · exact hne (Address.ext (hT _ _ hc))
    obtain ⟨l', rfl, hll'⟩ := hren.of_ref
    refine ⟨l', hll', a', hbuilds', ?_, hu⟩
    rintro rfl
    exact hne (Address.ext (he.persists.injective _ _ _ haa' hll'))

/-- The method gets a new array. -/
theorem Builds.addArray (h : m.Builds a) {n : Nat} {m₂ : Machine}
    (hcreate : createObject (m.registers.get .arrayClass) n .pointers m = .ok v m₁)
    (hset : setMethodField field v m₁ = .ok () m₂) :
    ∃ (σ : Renaming) (l b : Address), (∀ x, ¬ σ x l.offset) ∧ ¬ m₂.InTable l.offset ∧
      m₂.classOf (.ref l) = .ok (m₂.registers.get .arrayClass) ∧ m₂.memory.size (.ref l) = .ok n ∧
      σ a.offset b.offset ∧ m₂.Builds b ∧ m₂.memory.getPtr (.ref b) field = .ok (.ref l) ∧
      m.Enters (fun x i => x = a.offset ∧ i ∈ [field]) [] σ m₂ := by
  obtain ⟨σ, l, rfl, hcreated⟩ :=
    createObject_eq_ok h.wellFormed (h.wellFormed.registers.get .arrayClass) hcreate
  have hadds := hcreated.adds h.wellFormed
  have he := hadds.enters h.sound
  obtain ⟨b, hab, hbuilds⟩ := h.enters he
  obtain ⟨hbuilds₂, hstore, hget⟩ := hbuilds.setField (.ref hadds.mem) hset
  have hunmoved : m₁.memory.unmoved l.offset l.offset := ⟨hadds.mem, rfl⟩
  have hall : m.Enters (fun x i => x = a.offset ∧ i ∈ [field]) []
      (σ.followedBy m₁.memory.unmoved) m₂ := by
    refine he.trans hstore (fun _ _ hx => absurd hx id) (fun x x' i hx hi => ?_)
      fun _ _ hx => hx.1 ▸ h.apart
    obtain ⟨rfl, hi⟩ := hi
    exact ⟨he.persists.injective _ _ _ hx hab, hi⟩
  rw [he.persists.followedBy_unmoved] at hall
  exact ⟨σ, l, b, hadds.fresh, hstore.not_inTable hunmoved (hadds.not_inTable h.sound),
    hstore.hasClass (by decide) (.ref hunmoved) (hadds.hasClass (by decide)),
    (hstore.length (.ref hunmoved)).trans hcreated.length, hab, hbuilds₂, hget, hall⟩

/-- **Literals are filled in** while the method has them already. -/
theorem fills_literals :
    Fills source draft [Method.literals] (addLiterals draft.literals.toList) := by
  intro m m₂ a hbuilds hnil hrun
  unfold addLiterals at hrun
  by_cases hnone : draft.literals.toList = []
  · rw [hnone] at hrun
    cases hrun
    refine ⟨_, a, ⟨hbuilds.holds.mem, rfl⟩, hbuilds,
      .of_edits hbuilds.sound (.refl hbuilds.wellFormed) fun _ _ hx => hx.1 ▸ hbuilds.apart, ?_⟩
    intro field hfield
    refine ⟨_, hnil field hfield, ?_⟩
    rw [List.mem_singleton.1 hfield]
    exact .noLiterals hnone
  · rw [if_neg (by simpa using hnone), register_bind] at hrun
    obtain ⟨array, m₀, hcreate, hrun⟩ := bind_eq_ok hrun
    obtain ⟨_, m₁, hset, hfill⟩ := bind_eq_ok hrun
    obtain ⟨σ, l, b, hfresh, hapart, hclass, hsize, hab, hbuilds₁, hget, he⟩ :=
      hbuilds.addArray hcreate hset
    have hbl : b ≠ l := fun hc => hfresh _ (hc ▸ hab)
    rw [fillLiterals_eq_fillEntries] at hfill
    obtain ⟨τ, l', hll', ⟨a', hbuilds₂, hne, hget'⟩, he', hfilled⟩ := fillEntries_eq_ok
      locates_literals (fun entry _ => materializes entry) hbuilds₁.wellFormed hbuilds₁.sound
      ⟨b, hbuilds₁, hbl, hget⟩ hapart hfill
    have hba' : τ b.offset a'.offset := by
      obtain ⟨c, hbc, hc⟩ := hbuilds₁.enters he'
      obtain rfl := Value.ref.inj (hc.register.symm.trans hbuilds₂.register)
      exact hbc
    refine ⟨σ.followedBy τ, a', ⟨_, hab, hba'⟩, hbuilds₂, he.trans_new he' ?_,
      fun field hfield => ?_⟩
    · rintro x _ _ hx ⟨rfl, -⟩
      exact hfresh x hx
    · obtain rfl := List.mem_singleton.1 hfield
      refine ⟨_, hget', .literals hnone ?_ (he'.hasClass (by decide) (.ref hll') hclass)
        ((he'.length (.ref hll')).trans hsize) fun i entry hentry => ?_⟩
      · rintro (hc | hc)
        · exact he'.not_inTable hll' hapart (.inr (.inl hc))
        · exact hne (Address.ext hc.symm)
      · obtain ⟨v, hv, hdenotes⟩ := hfilled i entry hentry
        rw [Nat.zero_add] at hv
        refine ⟨v, hv, hdenotes.mono ?_⟩
        rintro x (hx | rfl)
        · exact he'.exists_table hx
        · exact ⟨_, hba'⟩

/-- The fields of a method that a draft describes. -/
def describedFields : List Nat :=
  [Method.text, Method.selector, Method.code, Method.literals, Method.argSize, Method.tempSize,
    Method.stackSize]

/-- **All fields are filled.** -/
theorem fills_method : Fills source draft describedFields (fillMethod source draft) := by
  have hsteps : fillMethod source draft = (do
      (do setMethodField Method.text (← newString source))
      (do setMethodField Method.selector (← newSymbol draft.selector))
      (do setMethodField Method.code (← newWords (draft.code.toList.map Instruction.encode)))
      addLiterals draft.literals.toList
      setMethodCount Method.argSize draft.argSize
      setMethodCount Method.tempSize draft.tempSize
      setMethodCount Method.stackSize draft.stackSize) := by
    unfold fillMethod
    simp only [bind_assoc]
  rw [hsteps]
  have hargSize : Fills source draft [Method.argSize]
      (setMethodCount Method.argSize draft.argSize) :=
    fills_count .argSize
  have htempSize :
      Fills source draft [Method.tempSize] (setMethodCount Method.tempSize draft.tempSize) :=
    fills_count .tempSize
  have hstackSize :
      Fills source draft [Method.stackSize] (setMethodCount Method.stackSize draft.stackSize) :=
    fills_count .stackSize
  exact fills_text.andThen (fills_selector.andThen (fills_code.andThen (fills_literals.andThen
    (hargSize.andThen (htempSize.andThen hstackSize (by decide)) (by decide))
    (by decide)) (by decide)) (by decide)) (by decide)

end Filling

/-! ## Nothing is lost -/

section Keeping

variable {K : List Root} {σ : Renaming} {m m₁ : Machine} {x i : Nat}

/-- What the table refers to are links and nil, so it is there afterwards although other links are
first in their chains then. -/
theorem Enters.bucket_renames (h : m.Enters untouched K σ m₁) (hx : m.IsTableAt x)
    (hi : i < m.memory.countAt x) (hk : m.memory.kindAt x = .pointers) :
    ∃ w, Value.Renames σ (m.memory.fieldAt x i) w := by
  obtain ⟨d, t, n, chains, ht, hnamed⟩ := h.sound.hasTable h.before
  obtain rfl := ht.isTableAt_iff.1 hx
  have hmem := (ht.holds_table h.before).mem
  have hsize := ht.size
  rw [size_ref_of_mem h.before.memory hmem] at hsize
  obtain rfl := Except.ok.inj hsize
  obtain ⟨head, hhead, hchain⟩ := ht.chain i hi
  rw [getPtr_of_mem h.before.memory hmem, if_neg (not_not.2 hk), if_neg (Nat.not_le.2 hi)] at hhead
  rw [Except.ok.inj hhead]
  generalize htags : chains i = tags at hchain
  cases hchain with
  | nil => exact ⟨_, h.nil⟩
  | @cons _ _ _ name rest =>
    have hfirst : (⟨head, name⟩ : Tag) ∈ chains i := htags ▸ List.mem_cons_self
    obtain ⟨spelled, rfl⟩ := Option.isSome_iff_exists.1 (hnamed i hi _ hfirst)
    have hfind : m.findSymbolLink spelled = .ok (some head) := by
      rw [ht.findSymbolLink h.before, ht.bucket i hi _ hfirst spelled rfl,
        found_of_mem (ht.unique i hi) hfirst rfl]
    obtain ⟨link', -, hren⟩ := h.grows.kept spelled head hfind
    exact ⟨link', hren⟩

theorem Enters.closed (h : m.Enters untouched K σ m₁) : σ.Closed m.memory := by
  intro x x' hx hk i hi
  by_cases htable : m.IsTableAt x
  · exact h.bucket_renames htable hi hk
  · exact ⟨_, (h.objects x x' hx).fields hk i hi fun hc => hc.elim htable id⟩

end Keeping

/-! ## The object of a method -/

section Building

variable {m m₁ : Machine} {cls method : Value} {source : String} {draft : Draft}

/-- Nothing is stored to any more. -/
def idle (_ : Nat) : Prop := False

/-- A new object is put into the register of the method that is being built. -/
theorem Adds.builds (hs : m.SoundTable) {σ : Renaming} {a : Address} (h : m.Adds cls σ a m₁) :
    Builds { m₁ with registers := m₁.registers.set .compilerMethod (.ref a) } a ∧
      m₁.Enters untouched [.compilerMethod] m₁.memory.unmoved
        { m₁ with registers := m₁.registers.set .compilerMethod (.ref a) } := by
  have hrefl : m₁.Enters untouched [.compilerMethod] m₁.memory.unmoved m₁ :=
    .of_edits (h.enters hs).grows.sound (.refl h.after) fun _ _ hx => absurd hx id
  have hheld : m₁.memory.Holds (.ref a) := .ref h.mem
  have hset := hrefl.setRegister List.mem_cons_self (by decide) hheld
  refine ⟨⟨hset.after, hset.grows.sound, ?_, ?_⟩, hset⟩
  · exact (Registers.get_set _ _ _ _).trans (if_pos rfl)
  · exact hset.not_inTable ⟨h.mem, rfl⟩ (h.not_inTable hs)

/-- The fields of a new method are filled. -/
theorem newMethod_eq_ok (hm : m.WellFormed) (hs : m.SoundTable)
    (hrun : (do
      setRegister .compilerMethod (← createObject (← register .methodClass) Method.size .pointers)
      fillMethod source draft) m = .ok () m₁) :
    ∃ (σ : Renaming) (a : Address), (∀ x, ¬ σ x a.offset) ∧ m₁.Builds a ∧
      m.Enters untouched [.compilerMethod] σ m₁ ∧
      m₁.classOf (.ref a) = .ok (m₁.registers.get .methodClass) ∧
      m₁.memory.size (.ref a) = .ok Method.size ∧
      ∀ field < Method.owner, ∃ v, m₁.memory.getPtr (.ref a) field = .ok v ∧
        m₁.Describes (m₁.busyWith a) source draft field v := by
  rw [register_bind] at hrun
  obtain ⟨_, m₂, hcreate, hrun⟩ := bind_eq_ok hrun
  obtain ⟨σ, b, rfl, hcreated⟩ := createObject_eq_ok hm (hm.registers.get .methodClass) hcreate
  have hadds := hcreated.adds hm
  obtain ⟨_, m₃, hset, hfill⟩ := bind_eq_ok hrun
  cases hset
  obtain ⟨hbuilds, hset⟩ := hadds.builds hs
  have hunmoved : Value.Renames m₂.memory.unmoved (.ref b) (.ref b) := .ref ⟨hadds.mem, rfl⟩
  have hnil : ∀ field ∈ describedFields, m₂.memory.getPtr (.ref b) field =
      .ok ((m₂.registers.set .compilerMethod (.ref b)).get .nil) := by
    intro field hfield
    rw [Registers.get_set, if_neg (by decide)]
    exact hcreated.getPtr ((by decide : ∀ field ∈ describedFields, field < Method.size)
      field hfield)
  obtain ⟨τ, a, hba, hbuilds₁, he, hfilled⟩ := fills_method hbuilds hnil hfill
  have hfirst : m.Enters untouched [.compilerMethod] (σ.followedBy m₂.memory.unmoved) _ :=
    ((hadds.enters hs).mono (fun _ _ hx => hx) (fun _ _ hx => absurd hx id)
      (List.nil_subset _)).trans_new hset fun _ _ _ _ hc => hc
  rw [hadds.persists.followedBy_unmoved] at hfirst
  have hsecond := he.mono (fun _ _ hx => hx) he.apart (List.nil_subset [.compilerMethod])
  refine ⟨σ.followedBy τ, a, ?_, hbuilds₁, hfirst.trans_new hsecond ?_, ?_, ?_,
    fun field hfield => ?_⟩
  · rintro x ⟨o, hxo, hoa⟩
    obtain rfl := he.persists.injective _ _ _ hoa hba
    exact hadds.fresh x hxo
  · rintro x _ _ hx ⟨rfl, -⟩
    exact hadds.fresh x hx
  · exact he.hasClass (by decide) (.ref hba)
      (hset.hasClass (by decide) hunmoved (hadds.hasClass (by decide)))
  · exact (he.length (.ref hba)).trans ((hset.length hunmoved).trans hcreated.length)
  · exact hfilled field ((by decide : ∀ field < Method.owner, field ∈ describedFields) field hfield)

theorem Builds.takeMethod {a : Address} (h : m.Builds a) (hrun : takeMethod m = .ok method m₁) :
    method = .ref a ∧ m₁ = { m with registers := m.registers.set .compilerMethod m.nil } := by
  cases hrun
  exact ⟨h.register, rfl⟩

/-- **A method is read back** from the object that was built for it, wherever collections have come:
every field describes the source and the draft, and the class is the one it was built for. The
method is in no register any more, and the values that are held are those from before. Whatever
could be reached is there, and it is what it was, but that links are added to the table of symbols.
Only what the register of the method had before may be gone. -/
theorem buildMethod_reads_back (hm : m.WellFormed) (hs : m.SoundTable) (hcls : m.memory.Holds cls)
    (hrun : buildMethod source cls draft m = .ok method m₁) :
    ∃ (σ : Renaming) (cls' : Value), Value.Renames σ cls cls' ∧
      m₁.classOf method = .ok (m₁.registers.get .methodClass) ∧
      m₁.memory.size method = .ok Method.size ∧
      (∀ field < Method.owner, ∃ v, m₁.memory.getPtr method field = .ok v ∧
        m₁.Describes idle source draft field v) ∧
      m₁.memory.getPtr method Method.owner = .ok cls' ∧
      m₁.registers.get .compilerMethod = m₁.nil ∧
      List.Forall₂ (Value.Renames σ) m.registers.scratch.toList m₁.registers.scratch.toList ∧
      m.Enters untouched [.compilerMethod] σ m₁ ∧
      ∀ (roots : Array Value) (x : Nat),
        (∀ v ∈ roots, v = cls ∨ v ∈ m.registers.scratch ∨
          ∃ r ≠ .compilerMethod, v = m.registers.get r) →
        m.memory.Reachable roots x →
        ∃ x', σ x x' ∧ Edited (fun _ => m.IsTableAt x) σ m.memory x m₁.memory x' := by
  unfold buildMethod at hrun
  obtain ⟨⟨_, w⟩, m₂, hholding, hrun⟩ := bind_eq_ok hrun
  obtain ⟨m₃, hact, rfl, hheld⟩ := holding_eq_ok hm hholding
  obtain ⟨σ, a, hfresh, hbuilds, he, hclass, hsize, hfields⟩ :=
    newMethod_eq_ok (hm.hold hcls) hs.withScratch hact
  obtain ⟨hedits, hren⟩ := hheld _ _ _ he.toEdits
  have he := he.withScratch hedits
  have hbuilds := hbuilds.withScratch hedits.after
  obtain ⟨_, m₄, hset, htake⟩ := bind_eq_ok hrun
  obtain ⟨hbuilds₄, hstore, howner⟩ := hbuilds.setField (he.holds hren) hset
  obtain ⟨rfl, rfl⟩ := hbuilds₄.takeMethod htake
  have hlast := (hstore.mono (fun _ _ hx => hx) hstore.apart
    (List.nil_subset [.compilerMethod])).setRegister List.mem_cons_self (by decide)
    (hbuilds₄.wellFormed.registers.get .nil)
  have hall := he.trans_new hlast fun x x' i hx hc => hfresh x (hc.1 ▸ hx)
  rw [he.persists.followedBy_unmoved] at hall
  have hsame : Value.Renames (m₃.withScratch
      (m₃.registers.scratch.extract 0 m.registers.scratch.size)).memory.unmoved (.ref a) (.ref a) :=
    .unmoved hbuilds.holds
  refine ⟨σ, w, hren, hlast.hasClass (by decide) hsame hclass, (hlast.length hsame).trans hsize,
    fun field hfield => ?_, howner, ?_, hall.scratch, hall, fun roots x hroots hx => ?_⟩
  · obtain ⟨v, hv, hdescribes⟩ := hfields field hfield
    obtain ⟨u, hu, hvu⟩ := hlast.getPtr hsame hv fun b hb => by
      obtain rfl := Value.ref.inj hb
      rintro (hc | hc)
      · exact hbuilds.apart (.inr (.inl hc))
      · exact hfield.ne (List.mem_singleton.1 hc.2)
    exact ⟨u, hu, hdescribes.withScratch.enters hlast (fun _ _ hc => .inr hc.1) (fun _ => .inl)
      (fun _ _ _ hc => absurd hc id) hvu⟩
  · show (m₄.registers.set .compilerMethod m₄.nil).get .compilerMethod =
      (m₄.registers.set .compilerMethod m₄.nil).get .nil
    rw [Registers.get_set, Registers.get_set, if_pos rfl, if_neg (by decide)]
    rfl
  · have hkept : ∀ v ∈ roots, ∃ u, Value.Renames σ v u := by
      intro v hv
      rcases hroots v hv with rfl | hscratch | ⟨r, hr, rfl⟩
      · exact ⟨w, hren⟩
      · exact hall.exists_of_held hscratch
      · exact hall.exists_of_register (by simpa using hr)
    obtain ⟨x', hx'⟩ := hall.exists_of_reachable hall.closed hkept hx
    exact ⟨x', hx', (hall.objects x x' hx').mono fun _ hc => hc.elim id fun hc => absurd hc id⟩

/-- A method with literals of all kinds, among them an array in an array. -/
def sampleDraft : Draft where
  selector := "s"
  code := #[.pushConst 0, .returnMethod]
  literals := #[.constant (.array [.integer 1, .symbol "a", .array [.string "x", .nil]]),
    .global "a", .selector "s"]
  argSize := 0
  tempSize := 1
  stackSize := 2

set_option maxRecDepth 100000 in
theorem answerOf_buildMethod_bareTable :
    (answerOf (buildMethod "s ^1" (Value.ofByte 3) sampleDraft bareTableMachine)).isSome := by
  decide +kernel

theorem buildMethod_reads_back_sampleDraft :
    ∃ method m₁, buildMethod "s ^1" (Value.ofByte 3) sampleDraft bareTableMachine = .ok method m₁ ∧
      m₁.memory.getPtr method Method.owner = .ok (Value.ofByte 3) ∧
      ∃ v, m₁.memory.getPtr method Method.literals = .ok v ∧
        m₁.Describes idle "s ^1" sampleDraft Method.literals v := by
  obtain ⟨method, hanswer⟩ := Option.isSome_iff_exists.1 answerOf_buildMethod_bareTable
  have hrun := eq_ok_of_answerOf hanswer
  obtain ⟨σ, cls, hren, -, -, hfields, howner, -⟩ := buildMethod_reads_back
    wellFormed_bareTableMachine soundTable_bareTableMachine (Holds.small _) hrun
  cases hren with
  | small => exact ⟨method, _, hrun, howner, hfields Method.literals (by decide)⟩

/-! ### Machines that are not in order -/

/-- A method that does nothing but return. -/
def bareDraft : Draft where
  selector := "n"
  code := #[.returnMethod]
  literals := #[]
  argSize := 0
  tempSize := 0
  stackSize := 0

/-- The table of symbols is the active context. -/
def tabledContextMachine : Machine :=
  { memory := bareTable
    registers := .ofList [(.smalltalk, .decode 12), (.activeContext, .decode 28)] }

/-- The dictionary of globals is its own table. -/
def selfTabledMachine : Machine :=
  { memory := .ofWords {} (fieldWords [] ++ fieldWords [12, 0, 0, 0, 0])
    registers := .ofList [(.smalltalk, .decode 12)] }

/-- A method is being built already, and nothing else refers to it. Its hash is 5. -/
def buildingMachine : Machine :=
  { memory := .ofWords {} (fieldWords [] ++ fieldWords [28] ++ fieldWords [0] ++
      [0, 5, SizeWord.make 0 .pointers])
    registers := .ofList [(.smalltalk, .decode 12), (.compilerMethod, .decode 44)] }

theorem wellFormed_disordered : tabledContextMachine.WellFormed ∧ selfTabledMachine.WellFormed ∧
    buildingMachine.WellFormed := by
  have hself : selfTabledMachine.memory.LaidOut [0, 12] := by decide +kernel
  have hbuilding : buildingMachine.memory.LaidOut [0, 12, 28, 44] := by decide +kernel
  exact ⟨laidOut_bareTable.wellFormed_machine (by decide) _ rfl (by decide +kernel),
    hself.wellFormed_machine (by decide) _ rfl (by decide +kernel),
    hbuilding.wellFormed_machine (by decide) _ rfl (by decide +kernel)⟩

set_option maxRecDepth 100000 in
/-- What can be reached when the method is built, and that none of it has the hash 5. -/
theorem reached_buildingMachine :
    let m₁ := machineOf (buildMethod "n ^1" (Value.ofByte 3) bareDraft buildingMachine)
    let os := m₁.memory.headers.erase 44
    (∀ v ∈ RootSet.toArray m₁.registers, IsAmong os v) ∧
      (∀ o ∈ os, IsAmong os (m₁.memory.classAt o)) ∧
      (∀ o ∈ os, m₁.memory.kindAt o = .pointers →
        ∀ i < m₁.memory.countAt o, IsAmong os (m₁.memory.fieldAt o i)) ∧
      ∀ o ∈ os, m₁.memory.hashAt o ≠ 5 := by
  decide +kernel

set_option maxRecDepth 100000 in
/-- A method is built on machines that are not in order. If the table of symbols is the active
context, a link is stored in a field of the context. If the dictionary of globals is its own table,
it has lost the table afterwards, and the selector is not found. And what the register of the method
had before cannot be reached any more. -/
theorem method_built_on_disordered_machines :
    (∃ m method m₁, m.WellFormed ∧ buildMethod "n ^1" (Value.ofByte 3) bareDraft m = .ok method m₁ ∧
      m.memory.getPtr (m.registers.get .activeContext) 0 = .ok m.nil ∧
      m₁.memory.getPtr (m₁.registers.get .activeContext) 0 ≠ .ok m₁.nil) ∧
    (∃ m method m₁, m.WellFormed ∧ buildMethod "n ^1" (Value.ofByte 3) bareDraft m = .ok method m₁ ∧
      m₁.findSymbolLink (Text.utf8 "n") = .error (.wrongKind "getPtr" .pointers)) ∧
    ∃ m method m₁, m.WellFormed ∧ buildMethod "n ^1" (Value.ofByte 3) bareDraft m = .ok method m₁ ∧
      m.memory.hash (m.registers.get .compilerMethod) = .ok 5 ∧
      ∀ o, m₁.memory.Reachable (RootSet.toArray m₁.registers) o → m₁.memory.hashAt o ≠ 5 := by
  obtain ⟨htabled, hself, hbuilding⟩ := wellFormed_disordered
  obtain ⟨hroots, hcls, hfields, hhash⟩ := reached_buildingMachine
  refine ⟨⟨tabledContextMachine, .decode 44, _, htabled, eq_ok_of_answerOf ?_, ?_, ?_⟩,
    ⟨selfTabledMachine, .decode 44, _, hself, eq_ok_of_answerOf ?_, ?_⟩,
    buildingMachine, .decode 56, _, hbuilding, eq_ok_of_answerOf ?_, ?_,
    fun o ho => hhash o (ho.mem_of_closed hroots hcls hfields)⟩ <;>
  decide +kernel

end Building

end Machine

end Smalltalk
