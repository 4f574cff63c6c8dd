import Smalltalk.Proofs.SymbolTable

/-!
# Objects of literals

A literal is read back from the object that was made for it: the bytes of strings and floats are
there, symbols are the keys of their links, characters are the shared ones, and an array has an
object for each of its items. `Machine.Denotes` says so, by recursion on literals.

Making the object of a literal makes many objects, each of which may start a collection. Whatever
was made before is moved then, so a literal has to be read back from an object at every later time.
It is, as long as nobody stores to its arrays. Only few objects are stored to meanwhile: the table
of symbols and the array that is being filled. `Machine.Denotes` has a parameter for them, and
arrays are not among them because they are newer.

## Main definitions

* `Machine.Enters`: objects are made and names interned, and some fields outside the table are
  touched
* `Machine.Denotes`, `Machine.DenotesEntry`: the literal that is read back from an object

## Main results

* `Machine.Denotes.enters`: literals are read back at every later time
* `Machine.fillEntries_eq_ok`: an array that is filled with the objects of literals
* `Machine.materialize_eq_ok`: the object of a literal denotes it
-/

namespace Smalltalk

open Memory Machine Layout

namespace Machine

/-! ## Making objects and names -/

/-- Objects are made and names interned. Apart from that, some fields are touched, but none of the
table. -/
structure Enters (T : Nat → Nat → Prop) (K : List Root) (σ : Renaming) (m m₁ : Machine) :
    Prop extends Edits (fun x i => m.IsTableAt x ∨ T x i) K σ m m₁ where
  sound : m.SoundTable
  apart : ∀ x i, T x i → ¬ m.InTable x
  grows : m.GrowsBy (fun _ => True) σ m₁

section Entering

variable {T T' U : Nat → Nat → Prop} {K L : List Root} {σ τ : Renaming} {m m₁ m₂ : Machine}
  {o v w : Value} {i x x' : Nat} {a : Address} {cls : Value}

theorem SoundTable.not_isTableAt_dictionary (hm : m.WellFormed) (h : m.SoundTable)
    (hx : (m.registers.get .smalltalk).IsAt x) : ¬ m.IsTableAt x := by
  obtain ⟨d, t, n, chains, h, -⟩ := h.hasTable hm
  obtain ⟨a, ha, rfl⟩ := hx
  rw [h.isTableAt_iff]
  intro hc
  exact h.apart ((Address.ext hc.symm).trans (Value.ref.inj (ha.symm.trans h.dictionary)))

namespace Enters

theorem dictionary (h : m.Enters T K σ m₁) (x : Nat) (hx : (m.registers.get .smalltalk).IsAt x) :
    ¬ (m.IsTableAt x ∨ T x Dictionary.table) := by
  rintro (hc | hc)
  · exact h.sound.not_isTableAt_dictionary h.before hx hc
  · exact h.apart x _ hc (.inl hx)

theorem isTableAt_iff (h : m.Enters T K σ m₁) (hx : σ x x') : m.IsTableAt x ↔ m₁.IsTableAt x' := by
  obtain ⟨t, t', ht, ht', htt'⟩ := h.sound.isTableAt h.toEdits h.dictionary
  rw [ht, ht']
  constructor
  · rintro rfl
    exact h.persists.functional _ _ _ hx htt'
  · rintro rfl
    exact h.persists.injective _ _ _ hx htt'

/-- The table is as old as the machine. -/
theorem exists_table (h : m.Enters T K σ m₁) (hx : m₁.IsTableAt x') : ∃ x, σ x x' := by
  obtain ⟨t, t', -, ht', htt'⟩ := h.sound.isTableAt h.toEdits h.dictionary
  exact ⟨t.offset, (ht' x').1 hx ▸ htt'⟩

/-- What is no part of the table does not become one. -/
theorem not_inTable (h : m.Enters T K σ m₁) (hx : σ x x') (hnot : ¬ m.InTable x) :
    ¬ m₁.InTable x' :=
  mt (h.sound.inTable h.toEdits h.grows h.dictionary hx) hnot

/-- Edits outside the table. -/
theorem of_edits (hs : m.SoundTable) (he : m.Edits T K σ m₁) (hT : ∀ x i, T x i → ¬ m.InTable x) :
    m.Enters T K σ m₁ where
  toEdits := he.mono (fun _ _ => .inr) (List.Subset.refl _)
  sound := hs
  apart := hT
  grows := (hs.edits he fun x i hx => .inr (hT x i hx)).mono fun _ _ => trivial

theorem mono (h : m.Enters T K σ m₁) (hT : ∀ x i, T x i → U x i)
    (hU : ∀ x i, U x i → ¬ m.InTable x) (hK : K ⊆ L) : m.Enters U L σ m₁ where
  toEdits := h.toEdits.mono (fun x i => Or.imp_right (hT x i)) hK
  sound := h.sound
  apart := hU
  grows := h.grows

/-- **One after the other.** -/
theorem trans (h : m.Enters T K σ m₁) (h' : m₁.Enters T' K τ m₂) (hT : ∀ x i, T x i → U x i)
    (hT' : ∀ x x' i, σ x x' → T' x' i → U x i) (hU : ∀ x i, U x i → ¬ m.InTable x) :
    m.Enters U K (σ.followedBy τ) m₂ where
  toEdits := h.toEdits.trans h'.toEdits (fun x i => Or.imp_right (hT x i)) fun x x' i hx =>
    Or.imp (h.isTableAt_iff hx).2 (hT' x x' i hx)
  sound := h.sound
  apart := hU
  grows := (h.grows.trans h.persists h.after h'.persists h'.grows).mono fun _ _ => trivial

/-- Nothing from before is touched in the second step. -/
theorem trans_new (h : m.Enters T K σ m₁) (h' : m₁.Enters T' K τ m₂)
    (hT' : ∀ x x' i, σ x x' → ¬ T' x' i) : m.Enters T K (σ.followedBy τ) m₂ :=
  h.trans h' (fun _ _ hx => hx) (fun x x' i hx hc => absurd hc (hT' x x' i hx)) h.apart

/-- A store outside the table. -/
theorem store (hm : m.WellFormed) (hs : m.SoundTable) (ho : m.memory.Holds o)
    (hv : m.memory.Holds v) (hnot : ∀ a : Address, o = .ref a → ¬ m.InTable a.offset)
    (hset : Machine.setPtr o i v m = .ok () m₁) :
    m.Enters (fun x j => o.IsAt x ∧ j = i) K m.memory.unmoved m₁ := by
  refine .of_edits hs ?_ ?_
  · exact (Edits.refl hm).setPtr ho hv hset fun a x ha hx => ⟨⟨a, ha, hx.2.symm⟩, rfl⟩
  · rintro _ _ ⟨⟨a, ha, rfl⟩, -⟩
    exact hnot a ha

theorem setPtr (h : m.Enters T K σ m₁) (ho : m₁.memory.Holds o) (hv : m₁.memory.Holds v)
    (hnot : ∀ a : Address, o = .ref a → ¬ m₁.InTable a.offset)
    (hset : Machine.setPtr o i v m₁ = .ok () m₂)
    (hT : ∀ (a : Address) x, o = .ref a → σ x a.offset → T x i) : m.Enters T K σ m₂ := by
  have hall := h.trans (U := T) (store h.after h.grows.sound ho hv hnot hset) (fun _ _ hx => hx)
    (by
      rintro x x' j hx ⟨⟨a, ha, rfl⟩, rfl⟩
      exact hT a x ha hx) h.apart
  rwa [h.persists.followedBy_unmoved] at hall

/-- A register is changed. -/
theorem setRegister (h : m.Enters T K σ m₁) {r : Root} (hr : r ∈ K) (hrunning : r ∈ Root.running)
    (hv : m₁.memory.Holds v) :
    m.Enters T K σ { m₁ with registers := m₁.registers.set r v } := by
  have he : m₁.Edits untouched K m₁.memory.unmoved { m₁ with registers := m₁.registers.set r v } :=
    (Edits.refl h.after).setRegister hr hrunning hv
  have hall := h.trans_new (.of_edits h.grows.sound he fun _ _ hx => absurd hx id)
    fun _ _ _ _ hc => hc
  rwa [h.persists.followedBy_unmoved] at hall

/-- Values that are held do not matter. -/
theorem withScratch {scratch scratch' : Array Value} (h : (m.withScratch scratch).Enters T K σ m₁)
    (he : m.Edits (fun x i => m.IsTableAt x ∨ T x i) K σ (m₁.withScratch scratch')) :
    m.Enters T K σ (m₁.withScratch scratch') where
  toEdits := he
  sound := by
    have hs : ((m.withScratch scratch).withScratch m.registers.scratch).SoundTable :=
      h.sound.withScratch
    exact hs
  apart := fun x i hx hc => h.apart x i hx (inTable_withScratch.2 hc)
  grows := h.grows.withScratch

end Enters

/-- A new object is made. -/
theorem Adds.enters (hs : m.SoundTable) (h : m.Adds cls σ a m₁) : m.Enters untouched [] σ m₁ :=
  .of_edits hs h.toEdits fun _ _ hx => absurd hx id

/-- A new object is no part of the table. -/
theorem Adds.not_inTable (hs : m.SoundTable) (h : m.Adds cls σ a m₁) : ¬ m₁.InTable a.offset := by
  have hgrows := hs.edits h.toEdits fun _ _ hx => absurd hx id
  have hold : ∀ {v w : Value}, Value.Renames σ v w → ¬ w.IsAt a.offset := by
    rintro v w hvw ⟨b, rfl, hb⟩
    exact hvw.ne_new h.fresh (congrArg Value.ref (Address.ext hb))
  rintro (hc | hc | ⟨name, link', hlink', hc⟩)
  · exact hold (h.constants .smalltalk (by decide)) hc
  · obtain ⟨x, hx⟩ := (h.enters hs).exists_table hc
    exact h.fresh x hx
  · rcases hs.findSymbolLink_cases h.before name with hnone | ⟨link, hlink⟩
    · cases (hgrows.absent name id hnone).symm.trans hlink'
    · obtain ⟨w, hw, hren⟩ := hgrows.kept name link hlink
      obtain rfl := Option.some.inj (Except.ok.inj (hw.symm.trans hlink'))
      exact hold hren hc

/-- A name is interned. -/
theorem intern_enters (hm : m.WellFormed) (hs : m.SoundTable) {name : List UInt8}
    (hrun : intern name m = .ok v m₁) :
    ∃ σ, m.Enters untouched [] σ m₁ ∧ m₁.findSymbolLink name = .ok (some v) := by
  obtain ⟨σ, he, hgrows, hfind, -⟩ := intern_eq_ok hm hs hrun
  exact ⟨σ, ⟨he.mono (fun _ _ => .inl) (List.Subset.refl _), hs, fun _ _ hx => absurd hx id,
    hgrows.mono fun _ _ => trivial⟩, hfind⟩

end Entering

/-! ## Literals that are read back -/

/-- The value is the symbol of a name: the key of its link. -/
def IsSymbol (m : Machine) (name : String) (v : Value) : Prop :=
  ∃ link, m.findSymbolLink (Text.utf8 name) = .ok (some link) ∧
    m.memory.getPtr link Link.key = .ok v

/-- The value denotes a literal. Arrays are objects that nobody stores to any more: they are not
among those that are `busy`. -/
inductive Denotes (busy : Nat → Prop) (m : Machine) : Literal → Value → Prop
  | integer {n : Int} {v : Value} (h : Value.ofInt? n = some v) : Denotes busy m (.integer n) v
  | float {x : Double} {v : Value} (hbytes : m.memory.bytes v = .ok x.toBytes)
      (hclass : m.classOf v = .ok (m.registers.get .floatClass)) : Denotes busy m (.float x) v
  | character (b : UInt8) : Denotes busy m (.character b) (m.character b)
  | string {s : String} {v : Value} (hbytes : m.memory.bytes v = .ok (Text.utf8 s))
      (hclass : m.classOf v = .ok (m.registers.get .stringClass)) : Denotes busy m (.string s) v
  | symbol {s : String} {v : Value} (h : m.IsSymbol s v) : Denotes busy m (.symbol s) v
  | nil : Denotes busy m .nil m.nil
  | true : Denotes busy m .true (m.boolean true)
  | false : Denotes busy m .false (m.boolean false)
  | array {items : List Literal} {a : Address} (element : Nat → Value) (hidle : ¬ busy a.offset)
      (hclass : m.classOf (.ref a) = .ok (m.registers.get .arrayClass))
      (hsize : m.memory.size (.ref a) = .ok items.length)
      (hget : ∀ i < items.length, m.memory.getPtr (.ref a) i = .ok (element i))
      (hitems : ∀ i item, items[i]? = some item → Denotes busy m item (element i)) :
      Denotes busy m (.array items) (.ref a)

/-- The value denotes an entry of the literals of a method. -/
def DenotesEntry (busy : Nat → Prop) (m : Machine) : LiteralEntry → Value → Prop
  | .constant literal, v => m.Denotes busy literal v
  | .selector name, v => m.IsSymbol name v
  | .global name, v => m.findSymbolLink (Text.utf8 name) = .ok (some v)

section Denoting

variable {T : Nat → Nat → Prop} {K : List Root} {σ : Renaming} {m m₁ : Machine} {o u v w : Value}
  {i : Nat} {busy busy' : Nat → Prop} {literal : Literal} {entry : LiteralEntry} {name : String}

theorem IsSymbol.enters (h : m.Enters T K σ m₁) (hv : m.IsSymbol name v)
    (hvw : Value.Renames σ v w) : m₁.IsSymbol name w := by
  obtain ⟨link, hlink, hkey⟩ := hv
  obtain ⟨link', hlink', hren⟩ := h.grows.kept _ link hlink
  obtain ⟨u, hu, hren'⟩ := h.getPtr hren hkey fun a ha hc => by
    rcases hc with hc | hc
    · exact (h.sound.isLinkOf h.before hlink).ne_table a ha hc
    · exact h.apart _ _ hc (.inr (.inr ⟨_, link, hlink, a, ha, rfl⟩))
  rw [(h.eq_iff hren' hvw).1 rfl] at hu
  exact ⟨link', hlink', hu⟩

theorem Denotes.mono (h : m.Denotes busy literal v) (hle : ∀ x, busy' x → busy x) :
    m.Denotes busy' literal v := by
  induction h with
  | integer h => exact .integer h
  | float hbytes hclass => exact .float hbytes hclass
  | character b => exact .character b
  | string hbytes hclass => exact .string hbytes hclass
  | symbol h => exact .symbol h
  | nil => exact .nil
  | true => exact .true
  | false => exact .false
  | array element hidle hclass hsize hget _ ih =>
    exact .array element (mt (hle _) hidle) hclass hsize hget ih

/-- **Literals are read back later**, if only objects that are busy have been stored to. -/
theorem Denotes.enters (h : m.Enters T K σ m₁) (hT : ∀ x i, T x i → busy x)
    (htable : ∀ x, m.IsTableAt x → busy x) (hbusy : ∀ x x', σ x x' → busy' x' → busy x)
    (hv : m.Denotes busy literal v) (hvw : Value.Renames σ v w) : m₁.Denotes busy' literal w := by
  induction hv generalizing w with
  | @integer n v hn =>
    cases hvw with
    | small => exact .integer hn
    | ref hab =>
      rcases ofInt?_cases n with hnone | ⟨k, hsmall⟩
      · cases hn.symm.trans hnone
      · cases hn.symm.trans hsmall
  | float hbytes hclass => exact .float (h.bytes hvw hbytes) (h.hasClass (by decide) hvw hclass)
  | character b =>
    rw [h.register_eq (r := .character b) (by simp [Root.running]) hvw]
    exact .character b
  | string hbytes hclass => exact .string (h.bytes hvw hbytes) (h.hasClass (by decide) hvw hclass)
  | symbol hs => exact .symbol (hs.enters h hvw)
  | nil =>
    rw [h.register_eq (r := .nil) (by decide) hvw]
    exact .nil
  | true =>
    rw [h.register_eq (r := .true) (by decide) hvw]
    exact .true
  | false =>
    rw [h.register_eq (r := .false) (by decide) hvw]
    exact .false
  | @array items a element hidle hclass hsize hget _ ih =>
    obtain ⟨b, rfl, hab⟩ := hvw.of_ref
    have hfield : ∀ i < items.length, ∃ u, m₁.memory.getPtr (.ref b) i = .ok u ∧
        Value.Renames σ (element i) u := by
      intro i hi
      refine h.getPtr hvw (hget i hi) fun c hc => ?_
      obtain rfl := Value.ref.inj hc
      rintro (hc | hc)
      · exact hidle (htable _ hc)
      · exact hidle (hT _ _ hc)
    have : Nonempty Value := ⟨Value.zeroRef⟩
    choose! element' hget' hren using hfield
    refine .array element' (mt (hbusy _ _ hab) hidle) (h.hasClass (by decide) hvw hclass)
      ((h.length hvw).trans hsize) hget' fun i item hitem => ?_
    exact ih i item hitem (hren i (List.getElem?_eq_some_iff.1 hitem).1)

theorem DenotesEntry.mono (h : m.DenotesEntry busy entry v) (hle : ∀ x, busy' x → busy x) :
    m.DenotesEntry busy' entry v := by
  cases entry with
  | constant literal => exact Denotes.mono h hle
  | selector name => exact h
  | global name => exact h

theorem DenotesEntry.enters (h : m.Enters T K σ m₁) (hT : ∀ x i, T x i → busy x)
    (htable : ∀ x, m.IsTableAt x → busy x) (hbusy : ∀ x x', σ x x' → busy' x' → busy x)
    (hv : m.DenotesEntry busy entry v) (hvw : Value.Renames σ v w) :
    m₁.DenotesEntry busy' entry w := by
  cases entry with
  | constant literal => exact Denotes.enters h hT htable hbusy hv hvw
  | selector name => exact IsSymbol.enters h hv hvw
  | global name =>
    obtain ⟨link, hlink, hren⟩ := h.grows.kept _ v hv
    rw [(h.eq_iff hren hvw).1 rfl] at hlink
    exact hlink

theorem IsSymbol.withScratch {scratch : Array Value} (h : m.IsSymbol name v) :
    (m.withScratch scratch).IsSymbol name v := by
  obtain ⟨link, hlink, hkey⟩ := h
  exact ⟨link, (findSymbolLink_withScratch _).trans hlink, hkey⟩

/-- Values that are held do not matter. -/
theorem Denotes.withScratch {scratch : Array Value} (h : m.Denotes busy literal v) :
    (m.withScratch scratch).Denotes busy literal v := by
  induction h with
  | integer h => exact .integer h
  | float hbytes hclass => exact .float hbytes hclass
  | character b => exact .character b
  | string hbytes hclass => exact .string hbytes hclass
  | symbol h => exact .symbol h.withScratch
  | nil => exact .nil
  | true => exact .true
  | false => exact .false
  | array element hidle hclass hsize hget _ ih => exact .array element hidle hclass hsize hget ih

theorem DenotesEntry.withScratch {scratch : Array Value} (h : m.DenotesEntry busy entry v) :
    (m.withScratch scratch).DenotesEntry busy entry v := by
  cases entry with
  | constant literal => exact Denotes.withScratch h
  | selector name => exact IsSymbol.withScratch h
  | global name => exact (findSymbolLink_withScratch _).trans h

end Denoting

/-! ## Arrays of literals -/

/-- Puts the object of an entry into an array. The array is looked up once the object is there. -/
def storeEntry (find : Exec Value) (i : Nat) (entry : LiteralEntry) : Exec Unit := do
  let value ← materializeEntry entry
  setPtr (← find) i value

/-- Puts the objects of entries into an array, from place `i` on. -/
def fillEntries (find : Exec Value) (i : Nat) : List LiteralEntry → Exec Unit
  | [] => return ()
  | entry :: entries => do
    storeEntry find i entry
    fillEntries find (i + 1) entries

theorem materializeInto_eq_fillEntries (place i : Nat) (items : List Literal) :
    materializeInto place i items = fillEntries (held place) i (items.map .constant) := by
  induction items generalizing i with
  | nil => rw [materializeInto, List.map_nil, fillEntries]
  | cons item items ih =>
    rw [materializeInto, List.map_cons, fillEntries, storeEntry, materializeEntry]
    simp only [ih, bind_assoc]

theorem fillLiterals_eq_fillEntries (i : Nat) (entries : List LiteralEntry) :
    fillLiterals i entries =
      fillEntries (do getPtr (← register .compilerMethod) Method.literals) i entries := by
  induction entries generalizing i with
  | nil => rfl
  | cons entry entries ih =>
    rw [fillLiterals, fillEntries, storeEntry]
    simp only [ih, bind_assoc]

/-- The object that is made for an entry denotes it. -/
def Materializes (entry : LiteralEntry) : Prop :=
  ∀ ⦃m m₁ : Machine⦄ ⦃v : Value⦄, m.WellFormed → m.SoundTable →
    materializeEntry entry m = .ok v m₁ →
    ∃ σ : Renaming, m.Enters untouched [] σ m₁ ∧ m₁.memory.Holds v ∧
      m₁.DenotesEntry (fun x' => ∃ x, σ x x') entry v

/-- An object is looked up, and it is the same object each time though collections have moved it. -/
structure Locates (find : Exec Value) (IsHere : Machine → Address → Prop) : Prop where
  finds : ∀ {m : Machine} {a : Address}, IsHere m a → find m = .ok (.ref a) m
  again : ∀ {T σ} {m m₁ : Machine} {a : Address}, IsHere m a → m.Enters T [] σ m₁ →
    (∀ x i, T x i → x = a.offset) → ∃ a' : Address, σ a.offset a'.offset ∧ IsHere m₁ a'

section Filling

variable {m m₁ : Machine} {v : Value} {find : Exec Value} {IsHere : Machine → Address → Prop}
  {i : Nat} {a : Address} {entry : LiteralEntry} {entries : List LiteralEntry} {literal : Literal}

/-- One place of an array is filled. -/
theorem storeEntry_eq_ok (hfind : Locates find IsHere) (hmake : Materializes entry)
    (hm : m.WellFormed) (hs : m.SoundTable) (ha : IsHere m a) (hnot : ¬ m.InTable a.offset)
    (hrun : storeEntry find i entry m = .ok () m₁) :
    ∃ (σ : Renaming) (b : Address), σ a.offset b.offset ∧ IsHere m₁ b ∧
      m.Enters (fun x j => x = a.offset ∧ j = i) [] σ m₁ ∧
      ∃ w, m₁.memory.getPtr (.ref b) i = .ok w ∧
        m₁.DenotesEntry (fun x' => ∃ x, σ x x') entry w := by
  obtain ⟨value, m₂, hentry, hrun⟩ := bind_eq_ok hrun
  obtain ⟨σ, henters, hvalue, hdenotes⟩ := hmake hm hs hentry
  obtain ⟨b, hab, hb⟩ := hfind.again ha henters fun _ _ hx => absurd hx id
  obtain ⟨array, m₃, harray, hset⟩ := bind_eq_ok hrun
  obtain ⟨rfl, rfl⟩ := EStateM.Result.ok.inj ((hfind.finds hb).symm.trans harray)
  have hnotb : ∀ c : Address, Value.ref b = .ref c → ¬ m₂.InTable c.offset :=
    fun c hc => Value.ref.inj hc ▸ henters.not_inTable hab hnot
  have hheld : m₂.memory.Holds (.ref b) := .ref (henters.persists.range _ _ hab)
  have hstore : m₂.Enters (fun x j => (Value.ref b).IsAt x ∧ j = i) [] m₂.memory.unmoved m₁ :=
    .store henters.after henters.grows.sound hheld hvalue hnotb hset
  have hwide : m.Enters (fun x j => x = a.offset ∧ j = i) [] σ m₂ :=
    henters.mono (fun _ _ hx => absurd hx id) (fun _ _ hx => hx.1 ▸ hnot) (List.Subset.refl _)
  obtain ⟨_, hbb, hb₁⟩ := hfind.again hb hstore fun x _ hx => by
    obtain ⟨⟨c, hc, rfl⟩, -⟩ := hx
    rw [Value.ref.inj hc]
  obtain rfl := Address.ext hbb.2
  refine ⟨σ, b, hab, hb₁, ?_, value, ?_, ?_⟩
  · refine hwide.setPtr hheld hvalue hnotb hset fun c x hc hx => ?_
    obtain rfl := Value.ref.inj hc
    exact ⟨henters.persists.injective _ _ _ hx hab, rfl⟩
  · rw [getPtr_after_setPtr henters.after hheld hvalue hset hheld, if_pos ⟨rfl, rfl⟩]
  · refine hdenotes.enters hstore ?_ (fun x hx => henters.exists_table hx)
      (fun x x' hx hy => hx.2 ▸ hy) (.unmoved hvalue)
    rintro x _ ⟨⟨c, hc, rfl⟩, -⟩
    exact ⟨_, Value.ref.inj hc ▸ hab⟩

/-- **Filling an array.** -/
theorem fillEntries_eq_ok (hfind : Locates find IsHere)
    (hmake : ∀ entry ∈ entries, Materializes entry) (hm : m.WellFormed) (hs : m.SoundTable)
    (ha : IsHere m a) (hnot : ¬ m.InTable a.offset)
    (hrun : fillEntries find i entries m = .ok () m₁) :
    ∃ (σ : Renaming) (a' : Address), σ a.offset a'.offset ∧ IsHere m₁ a' ∧
      m.Enters (fun x j => x = a.offset ∧ i ≤ j) [] σ m₁ ∧
      ∀ k entry, entries[k]? = some entry → ∃ w, m₁.memory.getPtr (.ref a') (i + k) = .ok w ∧
        m₁.DenotesEntry (fun x' => ∃ x, σ x x') entry w := by
  induction entries generalizing m i a with
  | nil =>
    cases hrun
    have henters : m₁.Enters (fun x j => x = a.offset ∧ i ≤ j) [] m₁.memory.unmoved m₁ :=
      .of_edits hs (.refl hm) fun _ _ hx => hx.1 ▸ hnot
    obtain ⟨a', haa', ha'⟩ := hfind.again ha henters fun _ _ hx => hx.1
    exact ⟨_, a', haa', ha', henters, fun k entry hk => (by cases hk)⟩
  | cons entry entries ih =>
    obtain ⟨_, m₂, hentry, hrun⟩ := bind_eq_ok hrun
    obtain ⟨σ, b, hab, hb, hstep, value, hget, hdenotes⟩ :=
      storeEntry_eq_ok hfind (hmake entry List.mem_cons_self) hm hs ha hnot hentry
    have hnotb := hstep.not_inTable hab hnot
    obtain ⟨τ, a', hba', ha', hrest, hentries⟩ := ih
      (fun entry hentry => hmake entry (List.mem_cons_of_mem _ hentry)) hstep.after
      hstep.grows.sound hb hnotb hrun
    refine ⟨σ.followedBy τ, a', ⟨_, hab, hba'⟩, ha', ?_, ?_⟩
    · refine hstep.trans hrest (fun x j hx => ⟨hx.1, hx.2.symm.le⟩) (fun x x' j hx hj => ?_)
        fun _ _ hx => hx.1 ▸ hnot
      obtain ⟨rfl, hj⟩ := hj
      exact ⟨hstep.persists.injective _ _ _ hx hab, by omega⟩
    · intro k entry' hk
      cases k with
      | succ k =>
        obtain ⟨w, hw, hdenotes'⟩ := hentries k entry' hk
        rw [show i + (k + 1) = i + 1 + k by omega]
        refine ⟨w, hw, hdenotes'.mono ?_⟩
        rintro x' ⟨x, o, -, ho⟩
        exact ⟨o, ho⟩
      | zero =>
        obtain rfl := Option.some.inj hk
        -- The first place is not touched again, and its value is older than what is.
        obtain ⟨w, hw, hren⟩ := hrest.getPtr (.ref hba') hget fun c hc => by
          obtain rfl := Value.ref.inj hc
          rintro (hc | hc)
          · exact hnotb (.inr (.inl hc))
          · omega
        refine ⟨w, hw, hdenotes.enters hrest ?_ (fun x hx => hstep.exists_table hx) ?_ hren⟩
        · rintro x _ ⟨rfl, -⟩
          exact ⟨_, hab⟩
        · rintro x x' hx ⟨y, o, hyo, ho⟩
          exact ⟨y, hrest.persists.injective _ _ _ ho hx ▸ hyo⟩

/-- A value that is held is found again. -/
theorem locates_held (place : Nat) :
    Locates (held place) fun m a => m.registers.scratch[place]? = some (.ref a) where
  finds := by
    intro m a ha
    show EStateM.Result.ok (m.registers.scratch.getD place Value.zeroRef) m = _
    rw [Array.getD_eq_getD_getElem?, ha]
    rfl
  again := by
    intro T σ m m₁ a ha henters _
    obtain ⟨w, hw, hren⟩ := henters.held place _ ha
    obtain ⟨a', rfl, haa'⟩ := hren.of_ref
    exact ⟨a', haa', hw⟩

end Filling

/-! ## Making the objects of literals -/

section Making

variable {m m₁ : Machine} {v : Value} {σ : Renaming} {r : Root} {name : String}

theorem newBytes_enters (hm : m.WellFormed) (hs : m.SoundTable) (hr : r ∉ Root.running)
    {bs : List UInt8} (h : newBytes (m.registers.get r) bs m = .ok v m₁) :
    ∃ σ, m.Enters untouched [] σ m₁ ∧ m₁.memory.Holds v ∧ m₁.memory.bytes v = .ok bs ∧
      m₁.classOf v = .ok (m₁.registers.get r) := by
  obtain ⟨σ, a, rfl, hadds, hbytes⟩ := newBytes_eq_ok hm (hm.registers.get r) h
  exact ⟨σ, hadds.enters hs, .ref hadds.mem, hbytes, hadds.hasClass hr⟩

theorem newSymbol_enters (hm : m.WellFormed) (hs : m.SoundTable)
    (h : newSymbol name m = .ok v m₁) :
    ∃ σ, m.Enters untouched [] σ m₁ ∧ m₁.memory.Holds v ∧ m₁.IsSymbol name v := by
  obtain ⟨link, m₂, hintern, hkey⟩ := bind_eq_ok h
  obtain ⟨hkey, rfl⟩ := read_eq_ok hkey
  obtain ⟨σ, henters, hfind⟩ := intern_enters hm hs hintern
  have hlink := (henters.grows.sound.isLinkOf henters.after hfind).held
  exact ⟨σ, henters, (henters.after.memory.holds_getPtr hlink hkey).2, link, hfind, hkey⟩

/-- What is there already denotes a literal that is no array. -/
theorem materializes_of_look {literal : Literal} {f : Machine → Value}
    (hlook : materialize literal = look f) (hf : ∀ m : Machine, m.WellFormed → m.memory.Holds (f m))
    (hdenotes : ∀ busy (m : Machine), m.Denotes busy literal (f m)) :
    Materializes (.constant literal) := by
  intro m m₁ v hm hs h
  rw [materializeEntry, hlook] at h
  cases h
  exact ⟨_, .of_edits hs (.refl hm) fun _ _ hx => absurd hx id, hf m hm, hdenotes _ m⟩

/-- An array is made first and filled afterwards, while it is held. -/
theorem materializes_array {items : List Literal}
    (hitems : ∀ item ∈ items, Materializes (.constant item)) :
    Materializes (.constant (.array items)) := by
  intro m m₁ v hm hs h
  rw [materializeEntry, materialize, register_bind] at h
  obtain ⟨array, m₂, hcreate, h⟩ := bind_eq_ok h
  obtain ⟨σ, a, rfl, hcreated⟩ := createObject_eq_ok hm (hm.registers.get .arrayClass) hcreate
  have hadds := hcreated.adds hm
  have henters := hadds.enters hs
  obtain ⟨⟨_, w⟩, m₃, hholding, h⟩ := bind_eq_ok h
  cases h
  obtain ⟨m₄, hfill, rfl, hheld⟩ := holding_eq_ok hadds.after hholding
  rw [materializeInto_eq_fillEntries] at hfill
  have hlast : (m₂.registers.scratch ++ #[Value.ref a])[m₂.registers.scratch.size]? =
      some (.ref a) := by
    rw [Array.getElem?_append_right (Nat.le_refl _), Nat.sub_self]
    rfl
  obtain ⟨τ, a', haa', -, hfilled, hentries⟩ := fillEntries_eq_ok
    (locates_held m₂.registers.scratch.size) (by simpa using hitems)
    (hadds.after.hold (.ref hadds.mem)) henters.grows.sound.withScratch hlast
    (mt inTable_withScratch.1 (hadds.not_inTable hs)) hfill
  obtain ⟨hedits, hren⟩ := hheld _ _ _ hfilled.toEdits
  obtain rfl := (hedits.eq_iff hren (.ref haa')).1 rfl
  have hlater := hfilled.withScratch hedits
  have hfield : ∀ i < items.length, ∃ u, m₄.memory.getPtr (.ref a') i = .ok u ∧
      ∀ item, items[i]? = some item → m₄.Denotes (fun x' => ∃ x, τ x x') item u := by
    intro i hi
    obtain ⟨item, hitem⟩ : ∃ item, items[i]? = some item := ⟨_, List.getElem?_eq_getElem hi⟩
    obtain ⟨u, hu, hdenotes⟩ := hentries i (.constant item) (by rw [List.getElem?_map, hitem]; rfl)
    rw [Nat.zero_add] at hu
    refine ⟨u, hu, fun item' hitem' => ?_⟩
    obtain rfl := Option.some.inj (hitem.symm.trans hitem')
    exact hdenotes
  have : Nonempty Value := ⟨Value.zeroRef⟩
  choose! element hget hdenotes using hfield
  refine ⟨σ.followedBy τ, henters.trans_new hlater ?_, hlater.holds hren, ?_⟩
  · rintro x _ _ hx ⟨rfl, -⟩
    exact hadds.fresh x hx
  · refine .array element ?_ (hlater.hasClass (by decide) hren (hadds.hasClass (by decide)))
      ((hlater.length hren).trans hcreated.length) hget fun i item hitem => ?_
    · rintro ⟨x, o, hxo, ho⟩
      obtain rfl := hlater.persists.injective _ _ _ ho haa'
      exact hadds.fresh x hxo
    · refine ((hdenotes i (List.getElem?_eq_some_iff.1 hitem).1 item hitem).mono ?_).withScratch
      rintro x' ⟨x, o, -, ho⟩
      exact ⟨o, ho⟩

/-- **The object of a literal denotes it.** -/
theorem materializes_constant (literal : Literal) : Materializes (.constant literal) := by
  cases literal with
  | integer n =>
    intro m m₁ v hm hs h
    rw [materializeEntry, materialize] at h
    cases hn : Value.ofInt? n with
    | none =>
      rw [hn] at h
      cases h
    | some u =>
      rw [hn] at h
      cases h
      refine ⟨_, .of_edits hs (.refl hm) fun _ _ hx => absurd hx id, ?_, .integer hn⟩
      rcases ofInt?_cases n with hnone | ⟨k, hsmall⟩
      · cases hn.symm.trans hnone
      · cases hn.symm.trans hsmall
        exact .small k
  | float x =>
    intro m m₁ v hm hs h
    rw [materializeEntry, materialize] at h
    obtain ⟨σ, henters, hheld, hbytes, hclass⟩ := newBytes_enters hm hs (by decide) h
    exact ⟨σ, henters, hheld, .float hbytes hclass⟩
  | character b =>
    exact materializes_of_look (by rw [materialize]; rfl)
      (fun m hm => hm.registers.get (.character b)) fun _ _ => .character b
  | string s =>
    intro m m₁ v hm hs h
    rw [materializeEntry, materialize] at h
    obtain ⟨σ, henters, hheld, hbytes, hclass⟩ := newBytes_enters hm hs (by decide) h
    exact ⟨σ, henters, hheld, .string hbytes hclass⟩
  | symbol s =>
    intro m m₁ v hm hs h
    rw [materializeEntry, materialize] at h
    obtain ⟨σ, henters, hheld, hsymbol⟩ := newSymbol_enters hm hs h
    exact ⟨σ, henters, hheld, .symbol hsymbol⟩
  | nil =>
    exact materializes_of_look (by rw [materialize]; rfl) (fun m hm => hm.registers.get .nil)
      fun _ _ => .nil
  | true =>
    exact materializes_of_look (by rw [materialize]; rfl) (fun m hm => hm.registers.get .true)
      fun _ _ => .true
  | false =>
    exact materializes_of_look (by rw [materialize]; rfl) (fun m hm => hm.registers.get .false)
      fun _ _ => .false
  | array items => exact materializes_array fun item hitem => materializes_constant item
termination_by sizeOf literal

/-- **The object of an entry denotes it.** -/
theorem materializes (entry : LiteralEntry) : Materializes entry := by
  cases entry with
  | constant literal => exact materializes_constant literal
  | selector name => exact fun _ _ _ hm hs h => newSymbol_enters hm hs h
  | global name =>
    intro m m₁ v hm hs h
    obtain ⟨σ, henters, hfind⟩ := intern_enters hm hs h
    exact ⟨σ, henters, (henters.grows.sound.isLinkOf henters.after hfind).held, hfind⟩

end Making


end Machine

end Smalltalk
