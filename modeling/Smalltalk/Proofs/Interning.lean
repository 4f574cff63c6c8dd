import Smalltalk.Proofs.Editing
import Smalltalk.Proofs.Walk

/-!
# The chains of the table of symbols

The table of symbols and globals is an array of chains of links. What is said here of a machine is
which links each chain has, and what names their keys spell. A link is put in front of its chain
before its key is made, so there may be links without one, and none of them is found by any name.

A name is looked for in the chain that its hash chooses. Putting a link in front of a chain
disconnects nothing, so names that were there before are found as before.

## Main definitions

* `Machine.Chain`: the links of a chain, and the names of their keys
* `Machine.Tabulates`, `Machine.HasTable`: the chains of the table
* `Machine.SoundTable`: every link has a key
* `Machine.GrowsBy`: names are found as before, but for new ones

## Main results

* `Machine.HasTable.findSymbolLink`: what is found for a name
* `Machine.HasTable.edits`: edits elsewhere leave the table as it is
* `Machine.intern_eq_ok`: the link of a name, made if it is missing
-/

namespace Smalltalk

open Memory Machine Layout

/-- A link of the table, and the name that its key spells once it has one. -/
structure Tag where
  link : Value
  name : Option (List UInt8)

/-- The link has been moved at most. -/
structure Tag.Renames (σ : Renaming) (x x' : Tag) : Prop where
  link : Value.Renames σ x.link x'.link
  name : x'.name = x.name

/-- The first link with a name. -/
def found (tags : List Tag) (name : List UInt8) : Option Value :=
  (tags.find? fun x => x.name == some name).map Tag.link

section Tags

variable {σ : Renaming} {tags tags' : List Tag} {x x' : Tag} {name name' : List UInt8}
  {link : Value}

theorem found_cons_of_eq (h : x.name = some name) : found (x :: tags) name = some x.link := by
  rw [found, List.find?_cons_of_pos (by rw [h, beq_self_eq_true])]
  rfl

theorem found_cons_of_ne (h : x.name ≠ some name) : found (x :: tags) name = found tags name := by
  rw [found, List.find?_cons_of_neg (by simpa using h)]
  rfl

/-- Links that are moved are found as before. -/
theorem found_renames (h : List.Forall₂ (Tag.Renames σ) tags tags') :
    Option.Rel (Value.Renames σ) (found tags name) (found tags' name) := by
  induction h with
  | nil => exact .none
  | @cons x x' tags tags' hx _ ih =>
    by_cases hname : x.name = some name
    · rw [found_cons_of_eq hname, found_cons_of_eq (hx.name.trans hname)]
      exact .some hx.link
    · rw [found_cons_of_ne hname, found_cons_of_ne (hx.name.symm ▸ hname)]
      exact ih

theorem exists_of_found (h : found tags name = some link) :
    ∃ x ∈ tags, x.link = link ∧ x.name = some name := by
  obtain ⟨x, hx, rfl⟩ := Option.map_eq_some_iff.1 h
  exact ⟨x, List.mem_of_find?_eq_some hx, rfl, by simpa using List.find?_some hx⟩

theorem found_eq_none (h : found tags name = none) (hx : x ∈ tags) : x.name ≠ some name := by
  intro hname
  have hnone := Option.map_eq_none_iff.1 h
  exact absurd (beq_iff_eq.2 hname) (List.find?_eq_none.1 hnone x hx)

/-- A link with a name of its own is the one that is found. -/
theorem found_of_mem (hunique : (tags.filterMap Tag.name).Nodup) (hx : x ∈ tags)
    (hname : x.name = some name) : found tags name = some x.link := by
  induction tags with
  | nil => cases hx
  | cons y tags ih =>
    rcases List.mem_cons.1 hx with rfl | hx
    · exact found_cons_of_eq hname
    · have hne : y.name ≠ some name := by
        intro hy
        rw [List.filterMap_cons_some hy] at hunique
        exact (List.nodup_cons.1 hunique).1 (List.mem_filterMap.2 ⟨x, hx, hname⟩)
      rw [found_cons_of_ne hne]
      refine ih (hunique.sublist ?_) hx
      exact (List.sublist_cons_self y tags).filterMap _

theorem exists_renamed (h : List.Forall₂ (Tag.Renames σ) tags tags') (hx' : x' ∈ tags') :
    ∃ x ∈ tags, Tag.Renames σ x x' := by
  induction h with
  | nil => cases hx'
  | @cons y y' tags tags' hy _ ih =>
    rcases List.mem_cons.1 hx' with rfl | hx'
    · exact ⟨y, List.mem_cons_self, hy⟩
    · obtain ⟨x, hx, hren⟩ := ih hx'
      exact ⟨x, List.mem_cons_of_mem _ hx, hren⟩

theorem names_renamed (h : List.Forall₂ (Tag.Renames σ) tags tags') :
    tags'.filterMap Tag.name = tags.filterMap Tag.name := by
  induction h with
  | nil => rfl
  | cons hx _ ih => rw [List.filterMap_cons, List.filterMap_cons, hx.name, ih]

theorem tags_followedBy {τ : Renaming} {tags'' : List Tag}
    (h : List.Forall₂ (Tag.Renames σ) tags tags') (h' : List.Forall₂ (Tag.Renames τ) tags' tags'') :
    List.Forall₂ (Tag.Renames (σ.followedBy τ)) tags tags'' := by
  induction h generalizing tags'' with
  | nil =>
    cases h'
    exact .nil
  | cons hx _ ih =>
    cases h' with
    | cons hx' h' => exact .cons ⟨hx.link.followedBy hx'.link, hx'.name.trans hx.name⟩ (ih h')

/-- Under a renaming that moves nothing, links are what they were. -/
theorem tags_unmoved (hσ : ∀ a b, σ a b → a = b) (h : List.Forall₂ (Tag.Renames σ) tags tags') :
    tags' = tags := by
  induction h with
  | nil => rfl
  | @cons x x' tags tags' hx _ ih =>
    obtain ⟨link, name⟩ := x
    obtain ⟨link', name'⟩ := x'
    obtain ⟨hlink, hname⟩ := hx
    obtain rfl := hlink.eq_of_fixed hσ
    obtain rfl : name' = name := hname
    rw [ih]

end Tags

namespace Machine

/-- The key spells the name. A link without a key has nil there. -/
def Spells (m : Machine) (key : Value) : Option (List UInt8) → Prop
  | none => key = m.nil
  | some name => key ≠ m.nil ∧ m.memory.bytes key = .ok name ∧
      m.memory.hash key = .ok (symbolHash name)

/-- The links of a chain, and the names of their keys. Chains end in nil. -/
inductive Chain (m : Machine) : Value → List Tag → Prop
  | nil : Chain m m.nil []
  | cons {link key next : Value} {name : Option (List UInt8)} {rest : List Tag}
      (hlink : link ≠ m.nil)
      (hkey : m.memory.getPtr link Link.key = .ok key) (hspells : m.Spells key name)
      (hnext : m.memory.getPtr link Link.next = .ok next) (hrest : Chain m next rest) :
      Chain m link (⟨link, name⟩ :: rest)

/-- The table of symbols at `t`, a field of the dictionary at `d`, has these chains. Names are in
the chains of their hashes, each once at most. -/
structure Tabulates (m : Machine) (d t : Address) (n : Nat) (chains : Nat → List Tag) : Prop where
  dictionary : m.registers.get .smalltalk = .ref d
  table : m.memory.getPtr (.ref d) Dictionary.table = .ok (.ref t)
  size : m.memory.size (.ref t) = .ok n
  pos : 0 < n
  chain : ∀ b < n, ∃ head, m.memory.getPtr (.ref t) b = .ok head ∧ m.Chain head (chains b)
  bucket : ∀ b < n, ∀ x ∈ chains b, ∀ name, x.name = some name → (symbolHash name).toNat % n = b
  unique : ∀ b < n, ((chains b).filterMap Tag.name).Nodup
  apart : t ≠ d

/-- The table and the dictionary are no links themselves. -/
structure HasTable (m : Machine) (d t : Address) (n : Nat) (chains : Nat → List Tag) : Prop extends
    Tabulates m d t n chains where
  links : ∀ b < n, ∀ x ∈ chains b, x.link ≠ .ref d ∧ x.link ≠ .ref t

section Chains

variable {m m₁ : Machine} {v w : Value} {tags : List Tag} {x : Tag} {d t : Address} {n : Nat}
  {chains chains' : Nat → List Tag} {name : List UInt8} {T : Nat → Nat → Prop} {K : List Root}
  {σ : Renaming}

/-! ### Looking for a name -/

/-- Only the link of a name has it as its key. -/
theorem isKey_eq (hm : m.memory.WellFormed) {link key : Value} {spelled : Option (List UInt8)}
    (hkey : m.memory.getPtr link Link.key = .ok key) (hheld : m.memory.Holds key)
    (h : m.Spells key spelled) :
    m.isKey (symbolHash name) name link = .ok (spelled == some name) := by
  unfold isKey
  rw [hkey]
  cases spelled with
  | none =>
    obtain rfl : key = m.nil := h
    show (if m.nil = m.nil then _ else _) = _
    rw [if_pos rfl]
    rfl
  | some spelled =>
    obtain ⟨hne, hbytes, hhash⟩ := h
    obtain ⟨a, rfl, ha, hkind, -⟩ := bytes_eq_ok hm hheld hbytes
    show (if Value.ref a = m.nil then _ else _) = _
    rw [if_neg hne, hhash, kind_ref_of_mem hm ha, hkind, hbytes]
    show (if symbolHash spelled ≠ symbolHash name then Except.ok false else
      if BodyKind.bytes ≠ .bytes then .ok false else .ok (spelled == name)) = _
    by_cases hsame : symbolHash spelled = symbolHash name
    · rw [if_neg (not_not.2 hsame), if_neg (not_not.2 rfl)]
      rfl
    · rw [if_pos hsame]
      refine congrArg Except.ok (Eq.symm (beq_eq_false_iff_ne.2 fun hc => hsame ?_))
      rw [Option.some.inj hc]

theorem Chain.findInChain_steps (hm : m.memory.WellFormed) (hv : m.memory.Holds v)
    (h : m.Chain v tags) {steps : Nat} (hsteps : tags.length < steps) :
    m.findInChain (m.isKey (symbolHash name) name) steps v = .ok (found tags name) := by
  induction h generalizing steps with
  | nil =>
    obtain ⟨k, rfl⟩ : ∃ k, steps = k + 1 := ⟨steps - 1, by omega⟩
    rw [findInChain, if_pos rfl]
    rfl
  | @cons link key next spelled rest hlink hkey hspells hnext hrest ih =>
    obtain ⟨k, rfl⟩ : ∃ k, steps = k + 1 := ⟨steps - 1, by rw [List.length_cons] at hsteps; omega⟩
    have hheld := (hm.holds_getPtr hv hkey).2
    rw [findInChain, if_neg hlink, isKey_eq hm hkey hheld hspells]
    by_cases hname : spelled = some name
    · rw [found_cons_of_eq hname, beq_iff_eq.2 hname]
      rfl
    · rw [found_cons_of_ne hname, beq_eq_false_iff_ne.2 hname]
      rw [List.length_cons] at hsteps
      show (m.memory.getPtr link Link.next >>= _) = _
      rw [hnext]
      exact ih (hm.holds_getPtr hv hnext).2 (by omega)

/-- **A walk along a chain** finds the link of a name. -/
theorem Chain.findInChain (hm : m.memory.WellFormed) (hv : m.memory.Holds v) (h : m.Chain v tags) :
    m.findInChain (m.isKey (symbolHash name) name) m.chainBound v = .ok (found tags name) := by
  rw [findInChain_eq hm _ hv (Nat.le_refl _) (Nat.le_max_left m.chainBound (tags.length + 1))]
  exact h.findInChain_steps hm hv (by omega)

theorem HasTable.symbolBucket (h : m.HasTable d t n chains) (hash : UInt32) :
    m.symbolBucket hash = .ok (.ref t, hash.toNat % n) := by
  unfold Machine.symbolBucket
  rw [h.dictionary, h.table]
  show (m.memory.size (.ref t) >>= _) = _
  rw [h.size]
  show (if n = 0 then _ else _) = _
  rw [if_neg h.pos.ne']
  rfl

theorem HasTable.holds_dictionary (hm : m.WellFormed) (h : m.HasTable d t n chains) :
    m.memory.Holds (.ref d) :=
  h.dictionary ▸ hm.registers.get .smalltalk

theorem HasTable.holds_table (hm : m.WellFormed) (h : m.HasTable d t n chains) :
    m.memory.Holds (.ref t) :=
  (hm.memory.holds_getPtr (h.holds_dictionary hm) h.table).2

/-- **What is found for a name.** -/
theorem HasTable.findSymbolLink (hm : m.WellFormed) (h : m.HasTable d t n chains)
    (name : List UInt8) :
    m.findSymbolLink name = .ok (found (chains ((symbolHash name).toNat % n)) name) := by
  obtain ⟨head, hhead, hchain⟩ := h.chain _ (Nat.mod_lt (symbolHash name).toNat h.pos)
  unfold Machine.findSymbolLink
  dsimp only
  rw [h.symbolBucket]
  show (m.memory.getPtr (.ref t) _ >>= _) = _
  rw [hhead]
  exact hchain.findInChain hm.memory (hm.memory.holds_getPtr (h.holds_table hm) hhead).2

/-! ### Edits elsewhere -/

theorem Spells.edits (he : m.Edits T K σ m₁) {spelled : Option (List UInt8)}
    (h : m.Spells v spelled) (hvw : Value.Renames σ v w) : m₁.Spells w spelled := by
  cases spelled with
  | none => exact (he.eq_nil_iff hvw).1 h
  | some name =>
    obtain ⟨hne, hbytes, hhash⟩ := h
    exact ⟨mt (he.eq_nil_iff hvw).2 hne, he.bytes hvw hbytes, (he.hash hvw).trans hhash⟩

/-- A chain of which no key and no connection is touched. -/
theorem Chain.edits (he : m.Edits T K σ m₁) (h : m.Chain v tags) (hvw : Value.Renames σ v w)
    (hT : ∀ x ∈ tags, ∀ a : Address, x.link = .ref a →
      ¬ T a.offset Link.key ∧ ¬ T a.offset Link.next) :
    ∃ tags', m₁.Chain w tags' ∧ List.Forall₂ (Tag.Renames σ) tags tags' := by
  induction h generalizing w with
  | nil =>
    obtain rfl := (he.eq_nil_iff hvw).1 rfl
    exact ⟨[], .nil, .nil⟩
  | @cons link key next spelled rest hlink hkey hspells hnext hrest ih =>
    have hlinked := hT _ List.mem_cons_self
    obtain ⟨key', hkey', hren⟩ := he.getPtr hvw hkey fun a ha => (hlinked a ha).1
    obtain ⟨next', hnext', hren'⟩ := he.getPtr hvw hnext fun a ha => (hlinked a ha).2
    obtain ⟨rest', hrest', hall⟩ := ih hren' fun x hx => hT x (List.mem_cons_of_mem _ hx)
    exact ⟨_, .cons (mt (he.eq_nil_iff hvw).2 hlink) hkey' (hspells.edits he hren) hnext' hrest',
      .cons ⟨hvw, rfl⟩ hall⟩

/-- Nothing is moved. -/
theorem Chain.unmoved (he : m.Edits T K m.memory.unmoved m₁) (hv : m.memory.Holds v)
    (h : m.Chain v tags)
    (hT : ∀ x ∈ tags, ∀ a : Address, x.link = .ref a →
      ¬ T a.offset Link.key ∧ ¬ T a.offset Link.next) : m₁.Chain v tags := by
  obtain ⟨tags', h', hall⟩ := h.edits he (.unmoved hv) hT
  exact tags_unmoved (fun _ _ hab => hab.2) hall ▸ h'

theorem HasTable.congr (h : m.HasTable d t n chains) (hc : ∀ b < n, chains' b = chains b) :
    m.HasTable d t n chains' :=
  { h with
    chain := fun b hb => hc b hb ▸ h.chain b hb
    bucket := fun b hb => hc b hb ▸ h.bucket b hb
    unique := fun b hb => hc b hb ▸ h.unique b hb
    links := fun b hb => hc b hb ▸ h.links b hb }

/-- **The table is left alone** by edits of other objects, and of values of globals. -/
theorem HasTable.edits (he : m.Edits T K σ m₁) (h : m.HasTable d t n chains)
    (hd : ¬ T d.offset Dictionary.table) (ht : ∀ b, ¬ T t.offset b)
    (hlinks : ∀ b < n, ∀ x ∈ chains b, ∀ a : Address, x.link = .ref a →
      ¬ T a.offset Link.key ∧ ¬ T a.offset Link.next) :
    ∃ d' t' chains', m₁.HasTable d' t' n chains' ∧ σ d.offset d'.offset ∧ σ t.offset t'.offset ∧
      ∀ b < n, List.Forall₂ (Tag.Renames σ) (chains b) (chains' b) := by
  have hdictionary := he.constants .smalltalk (by decide)
  rw [h.dictionary] at hdictionary
  obtain ⟨d', hd', hdd'⟩ := hdictionary.of_ref
  obtain ⟨u, hu, htable⟩ := he.getPtr (.ref hdd') h.table fun a ha => Value.ref.inj ha ▸ hd
  obtain ⟨t', rfl, htt'⟩ := htable.of_ref
  have hchain : ∀ b < n, ∃ tags', (∃ head, m₁.memory.getPtr (.ref t') b = .ok head ∧
      m₁.Chain head tags') ∧ List.Forall₂ (Tag.Renames σ) (chains b) tags' := by
    intro b hb
    obtain ⟨head, hhead, hchain⟩ := h.chain b hb
    obtain ⟨head', hhead', hren⟩ := he.getPtr (.ref htt') hhead fun a ha => Value.ref.inj ha ▸ ht b
    obtain ⟨tags', hchain', hall⟩ := hchain.edits he hren (hlinks b hb)
    exact ⟨tags', ⟨head', hhead', hchain'⟩, hall⟩
  choose! chains' hchains' hall using hchain
  refine ⟨d', t', chains', ?_, hdd', htt', hall⟩
  refine ⟨⟨?dictionary, ?table, ?size, ?pos, ?chain, ?bucket, ?unique, ?apart⟩, ?links⟩
  case dictionary => exact hd'
  case table => exact hu
  case size => exact (he.length (.ref htt')).trans h.size
  case pos => exact h.pos
  case chain => exact hchains'
  case bucket =>
    intro b hb x' hx' name hname
    obtain ⟨x, hx, hren⟩ := exists_renamed (hall b hb) hx'
    exact h.bucket b hb x hx name (hren.name.symm.trans hname)
  case unique => exact fun b hb => (names_renamed (hall b hb)).symm ▸ h.unique b hb
  case apart =>
    rintro rfl
    exact h.apart (Address.ext (he.persists.injective _ _ _ htt' hdd'))
  case links =>
    intro b hb x' hx'
    obtain ⟨x, hx, hren⟩ := exists_renamed (hall b hb) hx'
    obtain ⟨hxd, hxt⟩ := h.links b hb x hx
    exact ⟨mt (he.eq_iff hren.link (.ref hdd')).2 hxd, mt (he.eq_iff hren.link (.ref htt')).2 hxt⟩

/-- Nothing is moved. -/
theorem HasTable.unmoved (he : m.Edits T K m.memory.unmoved m₁) (h : m.HasTable d t n chains)
    (hd : ¬ T d.offset Dictionary.table) (ht : ∀ b, ¬ T t.offset b)
    (hlinks : ∀ b < n, ∀ x ∈ chains b, ∀ a : Address, x.link = .ref a →
      ¬ T a.offset Link.key ∧ ¬ T a.offset Link.next) : m₁.HasTable d t n chains := by
  obtain ⟨d', t', chains', h', hdd', htt', hall⟩ := h.edits he hd ht hlinks
  obtain rfl := Address.ext hdd'.2
  obtain rfl := Address.ext htt'.2
  exact h'.congr fun b hb => (tags_unmoved (fun _ _ hab => hab.2) (hall b hb)).symm

/-! ### A link is put in front of its chain -/

variable {a : Address} {b : Nat} {rest : List Tag}

/-- One chain is replaced. -/
theorem HasTable.replace (he : m.Edits T K m.memory.unmoved m₁) (h : m.HasTable d t n chains)
    (hd : ¬ T d.offset Dictionary.table) (ht : ∀ b', b' ≠ b → ¬ T t.offset b')
    (hlinks : ∀ b' < n, b' ≠ b → ∀ x ∈ chains b', ∀ c : Address, x.link = .ref c →
      ¬ T c.offset Link.key ∧ ¬ T c.offset Link.next)
    (hchain : ∃ head, m₁.memory.getPtr (.ref t) b = .ok head ∧ m₁.Chain head tags)
    (hbucket : ∀ x ∈ tags, ∀ name, x.name = some name → (symbolHash name).toNat % n = b)
    (hunique : (tags.filterMap Tag.name).Nodup)
    (hapart : ∀ x ∈ tags, x.link ≠ .ref d ∧ x.link ≠ .ref t) :
    m₁.HasTable d t n (Function.update chains b tags) := by
  have hget : ∀ {u w : Value} {i : Nat}, m.memory.Holds u → m.memory.getPtr u i = .ok w →
      (∀ c : Address, u = .ref c → ¬ T c.offset i) → m₁.memory.getPtr u i = .ok w := by
    intro u w i hu hw hT
    obtain ⟨w', hw', hren⟩ := he.getPtr (.unmoved hu) hw hT
    rw [hren.eq_of_fixed fun _ _ hab => hab.2]
    exact hw'
  have htable := h.holds_table he.before
  refine ⟨⟨?dictionary, ?table, ?size, ?pos, ?chain, ?bucket, ?unique, ?apart⟩, ?links⟩
  case dictionary =>
    have hsame := he.constants .smalltalk (by decide)
    rw [h.dictionary] at hsame
    exact (hsame.eq_of_fixed fun _ _ hab => hab.2).symm
  case table =>
    exact hget (h.holds_dictionary he.before) h.table fun c hc => Value.ref.inj hc ▸ hd
  case size => exact (he.length (.unmoved htable)).trans h.size
  case pos => exact h.pos
  case chain =>
    intro b' hb'
    by_cases hbb : b' = b
    · subst hbb
      rw [Function.update_self]
      exact hchain
    · rw [Function.update_of_ne hbb]
      obtain ⟨head, hhead, hold⟩ := h.chain b' hb'
      exact ⟨head, hget htable hhead fun c hc => Value.ref.inj hc ▸ ht b' hbb,
        hold.unmoved he (he.before.memory.holds_getPtr htable hhead).2 (hlinks b' hb' hbb)⟩
  case bucket =>
    intro b' hb'
    by_cases hbb : b' = b
    · subst hbb
      rw [Function.update_self]
      exact hbucket
    · rw [Function.update_of_ne hbb]
      exact h.bucket b' hb'
  case unique =>
    intro b' hb'
    by_cases hbb : b' = b
    · subst hbb
      rw [Function.update_self]
      exact hunique
    · rw [Function.update_of_ne hbb]
      exact h.unique b' hb'
  case apart => exact h.apart
  case links =>
    intro b' hb'
    by_cases hbb : b' = b
    · subst hbb
      rw [Function.update_self]
      exact hapart
    · rw [Function.update_of_ne hbb]
      exact h.links b' hb'

/-- The table gets a link that has no key yet. -/
theorem HasTable.push (hm : m.WellFormed) (h : m.HasTable d t n chains) (hb : b < n)
    (ha : m.memory.Holds (.ref a)) (hnil : .ref a ≠ m.nil) (had : a ≠ d) (hat : a ≠ t)
    (hkey : m.memory.getPtr (.ref a) Link.key = .ok m.nil)
    (hnext : m.memory.getPtr (.ref a) Link.next = m.memory.getPtr (.ref t) b)
    (hset : Machine.setPtr (.ref t) b (.ref a) m = .ok () m₁) :
    m₁.HasTable d t n (Function.update chains b (⟨.ref a, none⟩ :: chains b)) := by
  have ht := h.holds_table hm
  have he : m.Edits (fun x j => x = t.offset ∧ j = b) [] m.memory.unmoved m₁ :=
    (Edits.refl hm).setPtr ht ha hset fun c x hc hx => ⟨Value.ref.inj hc ▸ hx.2, rfl⟩
  have hget := fun {u} => getPtr_after_setPtr hm ht ha hset (u := u)
  have hlinks : ∀ b' < n, ∀ x ∈ chains b', ∀ c : Address, x.link = .ref c → ∀ i,
      ¬ (c.offset = t.offset ∧ i = b) := fun b' hb' x hx c hc i heq =>
    (h.links b' hb' x hx).2 (hc.trans (congrArg Value.ref (Address.ext heq.1)))
  obtain ⟨head, hhead, hchain⟩ := h.chain b hb
  refine h.replace he (fun hc => h.apart (Address.ext hc.1.symm)) (fun b' hbb hc => hbb hc.2)
    (fun b' hb' _ x hx c hc => ⟨hlinks b' hb' x hx c hc _, hlinks b' hb' x hx c hc _⟩)
    ⟨.ref a, by rw [hget ht, if_pos ⟨rfl, rfl⟩], ?_⟩ ?_ ?_ ?_
  · have hne : ∀ i, ¬ (Value.ref a = .ref t ∧ i = b) := fun _ hc => hat (Value.ref.inj hc.1)
    have hnil₁ : m₁.nil = m.nil := congrArg (·.get .nil) (registers_setPtr hset)
    exact .cons (hnil₁ ▸ hnil) (by rw [hget ha, if_neg (hne _), hkey]) hnil₁.symm
      (by rw [hget ha, if_neg (hne _), hnext, hhead])
      (hchain.unmoved he (hm.memory.holds_getPtr ht hhead).2 fun x hx c hc =>
        ⟨hlinks b hb x hx c hc _, hlinks b hb x hx c hc _⟩)
  · intro x hx name hname
    rcases List.mem_cons.1 hx with rfl | hx
    · cases hname
    · exact h.bucket b hb x hx name hname
  · rw [List.filterMap_cons]
    exact h.unique b hb
  · intro x hx
    rcases List.mem_cons.1 hx with rfl | hx
    · exact ⟨fun hc => had (Value.ref.inj hc), fun hc => hat (Value.ref.inj hc)⟩
    · exact h.links b hb x hx

/-- What is in front of a chain is in the table. -/
theorem HasTable.front_eq (h : m.HasTable d t n chains) (hb : b < n) {x : Tag}
    (hfirst : chains b = x :: rest) (hv : m.memory.getPtr (.ref t) b = .ok v) : v = x.link := by
  obtain ⟨head, hhead, hchain⟩ := h.chain b hb
  rw [hfirst] at hchain
  cases hchain
  exact Except.ok.inj (hv.symm.trans hhead)

/-- The link in front of a chain gets its key. -/
theorem HasTable.entitle (hm : m.WellFormed) (h : m.HasTable d t n chains) (hb : b < n)
    (hfirst : chains b = ⟨.ref a, none⟩ :: rest) (hrest : ∀ x ∈ rest, x.link ≠ .ref a)
    (hothers : ∀ b' < n, b' ≠ b → ∀ x ∈ chains b', x.link ≠ .ref a) (hv : m.memory.Holds v)
    (hspells : m.Spells v (some name)) (hbucket : (symbolHash name).toNat % n = b)
    (hnew : ∀ x ∈ rest, x.name ≠ some name)
    (hset : Machine.setPtr (.ref a) Link.key v m = .ok () m₁) :
    m₁.HasTable d t n (Function.update chains b (⟨.ref a, some name⟩ :: rest)) := by
  have ht := h.holds_table hm
  have hold : ∀ x ∈ (⟨.ref a, none⟩ : Tag) :: rest, x ∈ chains b := fun x hx => hfirst ▸ hx
  obtain ⟨had, hat⟩ := h.links b hb _ (hold _ List.mem_cons_self)
  obtain ⟨head, hhead, hchain⟩ := h.chain b hb
  rw [hfirst] at hchain
  cases hchain with
  | @cons _ key next _ _ hlink hkey _ hnext hchain =>
  have ha : m.memory.Holds (.ref a) := (hm.memory.holds_getPtr ht hhead).2
  have he : m.Edits (fun x j => x = a.offset ∧ j = Link.key) [] m.memory.unmoved m₁ :=
    (Edits.refl hm).setPtr ha hv hset fun c x hc hx => ⟨Value.ref.inj hc ▸ hx.2, rfl⟩
  have hget := fun {u} => getPtr_after_setPtr hm ha hv hset (u := u)
  have huntouched : ∀ {u : Value}, u ≠ .ref a → ∀ c : Address, u = .ref c → ∀ i,
      ¬ (c.offset = a.offset ∧ i = Link.key) := fun hu c hc i heq =>
    hu (hc.trans (congrArg Value.ref (Address.ext heq.1)))
  refine h.replace he (huntouched had.symm d rfl _) (fun b' _ => huntouched hat.symm t rfl b')
    (fun b' hb' hbb x hx c hc => ⟨huntouched (hothers b' hb' hbb x hx) c hc _,
      huntouched (hothers b' hb' hbb x hx) c hc _⟩) ⟨.ref a, ?_, ?_⟩ ?_ ?_ ?_
  · rw [hget ht, if_neg fun hc => hat hc.1.symm]
    exact hhead
  · have hnil₁ : m₁.nil = m.nil := congrArg (·.get .nil) (registers_setPtr hset)
    refine .cons (hnil₁ ▸ hlink) (by rw [hget ha, if_pos ⟨rfl, rfl⟩])
      (hspells.edits he (.unmoved hv)) ?_
      (hchain.unmoved he (hm.memory.holds_getPtr ha hnext).2 fun x hx c hc =>
        ⟨huntouched (hrest x hx) c hc _, huntouched (hrest x hx) c hc _⟩)
    rw [hget ha, if_neg fun hc => absurd hc.2 (by decide)]
    exact hnext
  · intro x hx spelled hname
    rcases List.mem_cons.1 hx with rfl | hx
    · obtain rfl := Option.some.inj hname
      exact hbucket
    · exact h.bucket b hb x (hold x (List.mem_cons_of_mem _ hx)) spelled hname
  · have hunique := h.unique b hb
    rw [hfirst, List.filterMap_cons] at hunique
    rw [List.filterMap_cons]
    refine List.nodup_cons.2 ⟨fun hc => ?_, hunique⟩
    obtain ⟨x, hx, hname⟩ := List.mem_filterMap.1 hc
    exact hnew x hx hname
  · intro x hx
    rcases List.mem_cons.1 hx with rfl | hx
    · exact ⟨had, hat⟩
    · exact h.links b hb x (hold x (List.mem_cons_of_mem _ hx))

/-- Links of the table are moved at most, so they are not new. -/
theorem ne_new_of_renamed (hall : ∀ b < n, List.Forall₂ (Tag.Renames σ) (chains b) (chains' b))
    (hnew : ∀ x, ¬ σ x a.offset) : ∀ b < n, ∀ x ∈ chains' b, x.link ≠ .ref a := by
  intro b hb x' hx'
  obtain ⟨x, -, hren⟩ := exists_renamed (hall b hb) hx'
  exact hren.link.ne_new hnew

end Chains

/-! ## Making a link -/

section Making

variable {m m₁ : Machine} {v : Value} {d t : Address} {n : Nat} {chains : Nat → List Tag}
  {name : List UInt8}

theorem symbolHash_and_hashMask (name : List UInt8) :
    symbolHash name &&& hashMask = symbolHash name := by
  rw [symbolHash, UInt32.and_assoc, UInt32.and_self]

/-- A table with a link in front of a chain that has no key yet is moved. -/
theorem HasTable.edits_front {b : Nat} {a : Address} {σ : Renaming}
    (h : m.HasTable d t n (Function.update chains b (⟨.ref a, none⟩ :: chains b))) (hb : b < n)
    (he : m.Edits untouched [] σ m₁) :
    ∃ a' d' t' chains',
      m₁.HasTable d' t' n (Function.update chains' b (⟨.ref a', none⟩ :: chains' b)) ∧
      σ a.offset a'.offset ∧ σ d.offset d'.offset ∧ σ t.offset t'.offset ∧
      ∀ b < n, List.Forall₂ (Tag.Renames σ) (chains b) (chains' b) := by
  obtain ⟨d', t', c, h', hd, ht, hall⟩ := h.edits he id (fun _ => id) fun _ _ _ _ _ _ => ⟨id, id⟩
  have hchain := hall b hb
  rw [Function.update_self] at hchain
  generalize hfirst : c b = tags at hchain
  cases hchain with
  | @cons _ x _ rest hx hrest =>
  obtain ⟨a', hlink, haa'⟩ := hx.link.of_ref
  obtain rfl : x = ⟨.ref a', none⟩ := by
    obtain ⟨link, name⟩ := x
    obtain rfl : link = .ref a' := hlink
    obtain rfl : name = none := hx.name
    rfl
  refine ⟨a', d', t', Function.update c b rest, ?_, haa', hd, ht, fun b' hb' => ?_⟩
  · rwa [Function.update_self, Function.update_idem, ← hfirst, Function.update_eq_self]
  · by_cases hbb : b' = b
    · subst hbb
      rwa [Function.update_self]
    · have hkept := hall b' hb'
      rw [Function.update_of_ne hbb] at hkept
      rwa [Function.update_of_ne hbb]

/-- A link that was made meanwhile is put in front of a chain. -/
theorem HasTable.attach {σ : Renaming} {a d₁ t₁ : Address} {chains₁ : Nat → List Tag} {b : Nat}
    {head : Value} {m₂ m₃ : Machine} (hm : m.WellFormed) (hb : b < n)
    (hc : Created (m.registers.get .linkClass) Link.size .pointers σ a m m₁)
    (h₁ : m₁.HasTable d₁ t₁ n chains₁) (hd : σ d.offset d₁.offset) (ht : σ t.offset t₁.offset)
    (hall : ∀ b < n, List.Forall₂ (Tag.Renames σ) (chains b) (chains₁ b))
    (hhead : m₁.memory.getPtr (.ref t₁) b = .ok head)
    (hnext : Machine.setPtr (.ref a) Link.next head m₁ = .ok () m₂)
    (hfirst : Machine.setPtr (.ref t₁) b (.ref a) m₂ = .ok () m₃) :
    m.Edits (fun x _ => x = t.offset) [] σ m₃ ∧
      m₃.HasTable d₁ t₁ n (Function.update chains₁ b (⟨.ref a, none⟩ :: chains₁ b)) ∧
      m₃.memory.getPtr (.ref a) Link.value = .ok m₃.nil := by
  have he₁ : m.Edits (fun x _ => x = t.offset) [] σ m₁ := hc.toShifted.edits hm
  have hm₁ := he₁.after
  have had : a ≠ d₁ := fun heq => hc.fresh _ (heq ▸ hd)
  have hat : a ≠ t₁ := fun heq => hc.fresh _ (heq ▸ ht)
  have hlinks := ne_new_of_renamed hall hc.fresh
  have ha₁ : m₁.memory.Holds (.ref a) := .ref hc.mem
  have hheld := (hm₁.memory.holds_getPtr (h₁.holds_table hm₁) hhead).2
  have hnil : Value.ref a ≠ m₁.nil := (he₁.nil.ne_new hc.fresh).symm
  -- The link is connected with the chain, which does not concern the table.
  have he₂ := he₁.setPtr_new hc.fresh hc.mem hheld hnext
  have hm₂ := he₂.after
  have hstep : m₁.Edits (fun x j => x = a.offset ∧ j = Link.next) [] m₁.memory.unmoved m₂ :=
    (Edits.refl hm₁).setPtr ha₁ hheld hnext fun c x hc hx => ⟨Value.ref.inj hc ▸ hx.2, rfl⟩
  have h₂ : m₂.HasTable d₁ t₁ n chains₁ := by
    refine h₁.unmoved hstep (fun hc => had (Address.ext hc.1.symm))
      (fun b hc => hat (Address.ext hc.1.symm)) fun b hb x hx c hxc => ?_
    have hne : c.offset ≠ a.offset := fun heq =>
      hlinks b hb x hx (hxc.trans (congrArg Value.ref (Address.ext heq)))
    exact ⟨fun hc => hne hc.1, fun hc => hne hc.1⟩
  have hget := fun {u} => getPtr_after_setPtr hm₁ ha₁ hheld hnext (u := u)
  have hnil₂ : m₂.nil = m₁.nil := congrArg (·.get .nil) (registers_setPtr hnext)
  have ha₂ : m₂.memory.Holds (.ref a) := hstep.holds (.unmoved ha₁)
  have hfield : ∀ i < Link.size, i ≠ Link.next → m₂.memory.getPtr (.ref a) i = .ok m₂.nil := by
    intro i hi hne
    rw [hget ha₁, if_neg fun hc => hne hc.2, hnil₂]
    exact hc.getPtr hi
  have htable₂ := h₂.holds_table hm₂
  refine ⟨he₂.setPtr htable₂ ha₂ hfirst fun c x hc hx => ?_, ?_, ?_⟩
  · exact he₂.persists.injective _ _ _ hx (Value.ref.inj hc ▸ ht)
  · refine h₂.push hm₂ hb ha₂ (hnil₂ ▸ hnil) had hat (hfield _ (by decide) (by decide)) ?_ hfirst
    rw [hget ha₁, if_pos ⟨rfl, rfl⟩, hget (h₁.holds_table hm₁),
      if_neg fun hc => hat (Value.ref.inj hc.1).symm, hhead]
  · have hnil₃ : m₃.nil = m₂.nil := congrArg (·.get .nil) (registers_setPtr hfirst)
    rw [getPtr_after_setPtr hm₂ htable₂ ha₂ hfirst ha₂, if_neg fun hc => hat (Value.ref.inj hc.1),
      hnil₃]
    exact hfield _ (by decide) (by decide)

/-- **A new link** is in front of the chain of its name, and the global has no value yet. -/
theorem addSymbolLink_eq_ok (hm : m.WellFormed) (h : m.HasTable d t n chains)
    (hnone : found (chains ((symbolHash name).toNat % n)) name = none)
    (hrun : addSymbolLink name m = .ok v m₁) :
    ∃ σ d' t' chains', m.Edits (fun x _ => x = t.offset) [] σ m₁ ∧ σ d.offset d'.offset ∧
      σ t.offset t'.offset ∧ (∀ b < n, List.Forall₂ (Tag.Renames σ) (chains b) (chains' b)) ∧
      m₁.HasTable d' t' n (Function.update chains' ((symbolHash name).toNat % n)
        (⟨v, some name⟩ :: chains' ((symbolHash name).toNat % n))) ∧
      (∃ a : Address, v = .ref a ∧ ∀ x, ¬ σ x a.offset) ∧
      m₁.memory.getPtr v Link.value = .ok m₁.nil := by
  set b := (symbolHash name).toNat % n with hb
  have hlt : b < n := Nat.mod_lt _ h.pos
  unfold addSymbolLink at hrun
  rw [register_bind] at hrun
  obtain ⟨link, m₂, hcreate, hrun⟩ := bind_eq_ok hrun
  obtain ⟨σ, a, rfl, hc⟩ := createObject_eq_ok hm (hm.registers.get .linkClass) hcreate
  obtain ⟨d₂, t₂, c₂, h₂, hd, ht, hall⟩ := h.edits (hc.adds hm).toEdits id (fun _ => id)
    fun _ _ _ _ _ _ => ⟨id, id⟩
  have hlinks := ne_new_of_renamed hall hc.fresh
  obtain ⟨⟨table, bucket⟩, hbucket, hrun⟩ := read_bind_eq_ok hrun
  obtain ⟨rfl, rfl⟩ := Prod.mk.inj (Except.ok.inj ((h₂.symbolBucket _).symm.trans hbucket))
  obtain ⟨head, hhead, hrun⟩ := read_bind_eq_ok hrun
  obtain ⟨_, m₃, hnext, hrun⟩ := bind_eq_ok hrun
  obtain ⟨_, m₄, hfirst, hrun⟩ := bind_eq_ok hrun
  obtain ⟨he₄, h₄, hvalue⟩ := HasTable.attach hm hlt hc h₂ hd ht hall hhead hnext hfirst
  -- The symbol is made, and everything may be moved once more.
  rw [register_bind] at hrun
  obtain ⟨symbol, m₅, hsymbol, hrun⟩ := bind_eq_ok hrun
  obtain ⟨τ, s, rfl, hadds, hbytes⟩ :=
    newBytes_eq_ok he₄.after (he₄.after.registers.get .symbolClass) hsymbol
  obtain ⟨_, m₆, hhash, hrun⟩ := bind_eq_ok hrun
  obtain ⟨hadds₆, hbytes₆, hhash₆⟩ := hadds.setHash hbytes hhash
  obtain ⟨a₆, d₆, t₆, c₆, h₆, haa₆, hd₆, ht₆, hall₆⟩ := h₄.edits_front hlt hadds₆.toEdits
  have hne : ∀ b' < n, ∀ x ∈ c₆ b', x.link ≠ .ref a₆ := by
    intro b' hb' x hx
    obtain ⟨y, hy, hren⟩ := exists_renamed (hall₆ b' hb') hx
    exact mt (hadds₆.eq_iff hren.link (.ref haa₆)).2 (hlinks b' hb' y hy)
  have hunnamed : ∀ x ∈ c₆ b, x.name ≠ some name := by
    intro x hx hname
    obtain ⟨y, hy, hren⟩ := exists_renamed (hall₆ b hlt) hx
    obtain ⟨z, hz, hren'⟩ := exists_renamed (hall b hlt) hy
    exact found_eq_none hnone hz (hren'.name.symm.trans (hren.name.symm.trans hname))
  obtain ⟨⟨table, bucket⟩, hbucket₆, hrun⟩ := read_bind_eq_ok hrun
  obtain ⟨rfl, rfl⟩ := Prod.mk.inj (Except.ok.inj ((h₆.symbolBucket _).symm.trans hbucket₆))
  obtain ⟨link, hlink₆, hrun⟩ := read_bind_eq_ok hrun
  obtain rfl := h₆.front_eq hlt (Function.update_self ..) hlink₆
  obtain ⟨_, m₇, hkey, hrun⟩ := bind_eq_ok hrun
  cases hrun
  have hm₆ := hadds₆.after
  have ha₆ : m₆.memory.Holds (.ref a₆) := hadds₆.holds (.ref haa₆)
  have hs₆ : m₆.memory.Holds (.ref s) := .ref hadds₆.mem
  have hspells : m₆.Spells (.ref s) (some name) :=
    ⟨(hadds₆.nil.ne_new hadds₆.fresh).symm, hbytes₆, symbolHash_and_hashMask name ▸ hhash₆⟩
  have hentitled := h₆.entitle hm₆ hlt (Function.update_self ..) (hne b hlt)
    (fun b' hb' hbb x hx => hne b' hb' x (by rwa [Function.update_of_ne hbb] at hx)) hs₆ hspells
    hb.symm hunnamed hkey
  rw [Function.update_idem] at hentitled
  have hedits : m.Edits (fun x _ => x = t.offset) [] (σ.followedBy τ) m₆ :=
    he₄.trans hadds₆.toEdits (fun _ _ h => h) fun _ _ _ _ h => absurd h id
  have hfresh : ∀ x, ¬ σ.followedBy τ x a₆.offset := by
    rintro x ⟨o, hxo, hoa⟩
    obtain rfl := hadds₆.persists.injective _ _ _ hoa haa₆
    exact hc.fresh x hxo
  refine ⟨σ.followedBy τ, d₆, t₆, c₆, hedits.setPtr_new hfresh ha₆.mem hs₆ hkey, ⟨_, hd, hd₆⟩,
    ⟨_, ht, ht₆⟩, fun b' hb' => tags_followedBy (hall b' hb') (hall₆ b' hb'), hentitled,
    ⟨a₆, rfl, hfresh⟩, ?_⟩
  obtain ⟨u, hu, hren⟩ := hadds₆.getPtr (.ref haa₆) hvalue fun _ _ => id
  have hnil₇ : m₁.nil = m₆.nil := congrArg (·.get .nil) (registers_setPtr hkey)
  rw [getPtr_after_setPtr hm₆ ha₆ hs₆ hkey ha₆, if_neg fun hc => absurd hc.2 (by decide), hu, hnil₇,
    (hadds₆.eq_nil_iff hren).1 rfl]

end Making

/-! ## Tables in which every link has a key -/

/-- The table of symbols and globals is in order: it is another object than the dictionary, every
link has a key that is made of bytes and has their hash, it is in the chain for this hash, no two
keys have the same bytes, and chains end in nil. -/
def SoundTable (m : Machine) : Prop :=
  ∃ d t n chains, m.Tabulates d t n chains ∧ ∀ b < n, ∀ x ∈ chains b, x.name.isSome

/-- The object at `x` is the table of symbols. -/
def IsTableAt (m : Machine) (x : Nat) : Prop :=
  ∃ t : Address, m.memory.getPtr (m.registers.get .smalltalk) Dictionary.table = .ok (.ref t) ∧
    t.offset = x

/-- The object at `x` belongs to the table: it is the dictionary, the table itself or a link. -/
def InTable (m : Machine) (x : Nat) : Prop :=
  (m.registers.get .smalltalk).IsAt x ∨ m.IsTableAt x ∨
    ∃ name link, m.findSymbolLink name = .ok (some link) ∧ link.IsAt x

/-- Names that were known are found as before, and only some others have become known. Their links
are new. -/
structure GrowsBy (names : List UInt8 → Prop) (σ : Renaming) (m m₁ : Machine) : Prop where
  sound : m₁.SoundTable
  kept : ∀ name link, m.findSymbolLink name = .ok (some link) →
    ∃ link', m₁.findSymbolLink name = .ok (some link') ∧ Value.Renames σ link link'
  absent : ∀ name, ¬ names name → m.findSymbolLink name = .ok none →
    m₁.findSymbolLink name = .ok none
  fresh : ∀ name link, m.findSymbolLink name = .ok none → m₁.findSymbolLink name = .ok (some link) →
    ∀ v, ¬ Value.Renames σ v link

section Sound

variable {m m₁ m₂ : Machine} {v link key : Value} {d t : Address} {n : Nat}
  {chains chains' : Nat → List Tag} {name name' : List UInt8} {T : Nat → Nat → Prop} {K : List Root}
  {σ τ : Renaming} {names names' : List UInt8 → Prop}

/-- A link of a chain. -/
theorem Chain.of_mem (hm : m.memory.WellFormed) (hv : m.memory.Holds v) {tags : List Tag}
    (h : m.Chain v tags) {x : Tag} (hx : x ∈ tags) :
    m.memory.Holds x.link ∧ x.link ≠ m.nil ∧
      ∃ key next, m.memory.getPtr x.link Link.key = .ok key ∧ m.Spells key x.name ∧
        m.memory.getPtr x.link Link.next = .ok next := by
  induction h with
  | nil => cases hx
  | @cons link key next spelled rest hlink hkey hspells hnext hrest ih =>
    rcases List.mem_cons.1 hx with rfl | hx
    · exact ⟨hv, hlink, key, next, hkey, hspells, hnext⟩
    · exact ih (hm.holds_getPtr hv hnext).2 hx

/-- Chains consist of objects with fields, but the keys are made of bytes. -/
theorem Tabulates.hasTable (hm : m.WellFormed) (h : m.Tabulates d t n chains)
    (hnamed : ∀ b < n, ∀ x ∈ chains b, x.name.isSome) : m.HasTable d t n chains := by
  have hd : m.memory.Holds (.ref d) := h.dictionary ▸ hm.registers.get .smalltalk
  have ht := (hm.memory.holds_getPtr hd h.table).2
  -- The first field of a link is made of bytes, unlike that of the dictionary and that of the
  -- table.
  have hfirst : ∀ b < n, ∀ x ∈ chains b, ∀ u w i, m.memory.getPtr x.link Link.key = .ok u →
      m.memory.getPtr u i ≠ .ok w ∧ u ≠ m.nil := by
    intro b hb x hx u w i hu
    obtain ⟨head, hhead, hchain⟩ := h.chain b hb
    obtain ⟨hheld, -, key, -, hkey, hspells, -⟩ :=
      hchain.of_mem hm.memory (hm.memory.holds_getPtr ht hhead).2 hx
    obtain rfl := Except.ok.inj (hu.symm.trans hkey)
    obtain ⟨name, hname⟩ := Option.isSome_iff_exists.1 (hnamed b hb x hx)
    rw [hname] at hspells
    obtain ⟨hne, hbytes, -⟩ := hspells
    refine ⟨fun hw => ?_, hne⟩
    have hu := (hm.memory.holds_getPtr hheld hkey).2
    obtain ⟨a, rfl, -, hk, -⟩ := bytes_eq_ok hm.memory hu hbytes
    obtain ⟨a', heq, -, hk', -⟩ := getPtr_eq_ok hm.memory hu hw
    obtain rfl := Value.ref.inj heq
    rw [hk] at hk'
    cases hk'
  refine { h with links := fun b hb x hx => ⟨fun hc => ?_, fun hc => ?_⟩ }
  · obtain ⟨head, hhead, -⟩ := h.chain 0 h.pos
    exact (hfirst b hb x hx (.ref t) head 0 (hc ▸ h.table)).1 hhead
  · obtain ⟨head, hhead, hchain⟩ := h.chain 0 h.pos
    generalize chains 0 = tags at hchain
    cases hchain with
    | nil => exact (hfirst b hb x hx m.nil m.nil 0 (hc ▸ hhead)).2 rfl
    | @cons _ key _ _ _ _ hkey => exact (hfirst b hb x hx head key Link.key (hc ▸ hhead)).1 hkey

theorem SoundTable.hasTable (hm : m.WellFormed) (h : m.SoundTable) :
    ∃ d t n chains, m.HasTable d t n chains ∧ ∀ b < n, ∀ x ∈ chains b, x.name.isSome := by
  obtain ⟨d, t, n, chains, h, hnamed⟩ := h
  exact ⟨d, t, n, chains, h.hasTable hm hnamed, hnamed⟩

theorem HasTable.isTableAt_iff (h : m.HasTable d t n chains) {x : Nat} :
    m.IsTableAt x ↔ x = t.offset := by
  unfold IsTableAt
  rw [h.dictionary, h.table]
  constructor
  · rintro ⟨t', ht', rfl⟩
    rw [Value.ref.inj (Except.ok.inj ht')]
  · rintro rfl
    exact ⟨t, rfl, rfl⟩

/-- In a table that is in order every name can be looked up. -/
theorem SoundTable.findSymbolLink_cases (hm : m.WellFormed) (h : m.SoundTable) (name : List UInt8) :
    m.findSymbolLink name = .ok none ∨ ∃ link, m.findSymbolLink name = .ok (some link) := by
  obtain ⟨d, t, n, chains, h, -⟩ := h.hasTable hm
  rw [h.findSymbolLink hm]
  cases found (chains ((symbolHash name).toNat % n)) name with
  | none => exact .inl rfl
  | some link => exact .inr ⟨link, rfl⟩

/-- What is known of the link of a name. -/
structure IsLinkOf (m : Machine) (name : List UInt8) (link : Value) : Prop where
  held : m.memory.Holds link
  ne_dictionary : link ≠ m.registers.get .smalltalk
  ne_table : ∀ a : Address, link = .ref a → ¬ m.IsTableAt a.offset
  key : ∃ key, m.memory.getPtr link Link.key = .ok key ∧ m.Spells key (some name)
  value : ∃ value, m.memory.getPtr link Link.value = .ok value

theorem SoundTable.isLinkOf (hm : m.WellFormed) (h : m.SoundTable)
    (hlink : m.findSymbolLink name = .ok (some link)) : m.IsLinkOf name link := by
  obtain ⟨d, t, n, chains, h, -⟩ := h.hasTable hm
  rw [h.findSymbolLink hm] at hlink
  have hb : (symbolHash name).toNat % n < n := Nat.mod_lt _ h.pos
  obtain ⟨x, hx, rfl, hname⟩ := exists_of_found (Except.ok.inj hlink)
  obtain ⟨head, hhead, hchain⟩ := h.chain _ hb
  obtain ⟨hheld, -, key, next, hkey, hspells, hnext⟩ :=
    hchain.of_mem hm.memory (hm.memory.holds_getPtr (h.holds_table hm) hhead).2 hx
  obtain ⟨hxd, hxt⟩ := h.links _ hb x hx
  constructor
  case held => exact hheld
  case ne_dictionary => exact h.dictionary ▸ hxd
  case ne_table =>
    intro a ha hat
    exact hxt (ha.trans (congrArg Value.ref (Address.ext (h.isTableAt_iff.1 hat))))
  case key => exact ⟨key, hkey, hname ▸ hspells⟩
  case value =>
    obtain ⟨a, ha, hmem, hk, hlt, -⟩ := getPtr_eq_ok hm.memory hheld hnext
    rw [ha]
    refine ⟨m.memory.fieldAt a.offset Link.value, ?_⟩
    have hlt' : Link.value < m.memory.countAt a.offset := Nat.lt_trans (by decide) hlt
    rw [getPtr_of_mem hm.memory hmem, if_neg (not_not.2 hk), if_neg (Nat.not_le.2 hlt')]

/-- A symbol is the key for one name. -/
theorem IsLinkOf.key_inj {link' : Value} (h : m.IsLinkOf name link) (h' : m.IsLinkOf name' link')
    (hkey : m.memory.getPtr link Link.key = .ok key)
    (hkey' : m.memory.getPtr link' Link.key = .ok key) : name = name' := by
  obtain ⟨k, hk, -, hbytes, -⟩ := h.key
  obtain ⟨k', hk', -, hbytes', -⟩ := h'.key
  obtain rfl := Except.ok.inj (hkey.symm.trans hk)
  obtain rfl := Except.ok.inj (hkey'.symm.trans hk')
  exact Except.ok.inj (hbytes.symm.trans hbytes')

/-- A link belongs to one name. -/
theorem IsLinkOf.name_inj (h : m.IsLinkOf name link) (h' : m.IsLinkOf name' link) :
    name = name' := by
  obtain ⟨key, hkey, -⟩ := h.key
  exact h.key_inj h' hkey hkey

/-! ### Names that are found as before -/

/-- What is found depends on the chain of the name alone. -/
theorem HasTable.kept (hm : m.WellFormed) (hm₁ : m₁.WellFormed) (h : m.HasTable d t n chains)
    {d' t' : Address} (h₁ : m₁.HasTable d' t' n chains')
    (hall : Option.Rel (Value.Renames σ) (found (chains ((symbolHash name).toNat % n)) name)
      (found (chains' ((symbolHash name).toNat % n)) name)) :
    (∀ link, m.findSymbolLink name = .ok (some link) →
      ∃ link', m₁.findSymbolLink name = .ok (some link') ∧ Value.Renames σ link link') ∧
    (m.findSymbolLink name = .ok none → m₁.findSymbolLink name = .ok none) := by
  rw [h.findSymbolLink hm, h₁.findSymbolLink hm₁]
  generalize found (chains ((symbolHash name).toNat % n)) name = before at hall
  generalize found (chains' ((symbolHash name).toNat % n)) name = after at hall
  cases hall with
  | none => exact ⟨fun link hlink => (by cases hlink), fun _ => rfl⟩
  | some hren =>
    refine ⟨fun link hlink => ?_, fun hnone => (by cases hnone)⟩
    obtain rfl := Option.some.inj (Except.ok.inj hlink)
    exact ⟨_, rfl, hren⟩

/-- Every link of a chain is found by its name. -/
theorem HasTable.inTable (hm : m.WellFormed) (h : m.HasTable d t n chains)
    (hnamed : ∀ b < n, ∀ x ∈ chains b, x.name.isSome) {b : Nat} (hb : b < n) {x : Tag}
    (hx : x ∈ chains b) {a : Address} (ha : x.link = .ref a) : m.InTable a.offset := by
  obtain ⟨name, hname⟩ := Option.isSome_iff_exists.1 (hnamed b hb x hx)
  refine .inr (.inr ⟨name, x.link, ?_, a, ha, rfl⟩)
  rw [h.findSymbolLink hm, h.bucket b hb x hx name hname, found_of_mem (h.unique b hb) hx hname]

/-- Edits that touch no more of the table than values of globals. -/
theorem SoundTable.edits (h : m.SoundTable) (he : m.Edits T K σ m₁)
    (hT : ∀ x i, T x i → (i = Link.value ∧ ¬ m.IsTableAt x) ∨ ¬ m.InTable x) :
    m.GrowsBy (fun _ => False) σ m₁ := by
  obtain ⟨d, t, n, chains, h, hnamed⟩ := h.hasTable he.before
  have hlinks : ∀ b < n, ∀ x ∈ chains b, ∀ a : Address, x.link = .ref a →
      ∀ i, i ≠ Link.value → ¬ T a.offset i := by
    intro b hb x hx a ha i hi hc
    rcases hT _ _ hc with hc | hc
    · exact hi hc.1
    · exact hc (h.inTable he.before hnamed hb hx ha)
  obtain ⟨d', t', chains', h', -, -, hall⟩ := h.edits he
    (fun hc => (hT _ _ hc).elim (fun hc => absurd hc.1 (by decide))
      fun hc => hc (.inl ⟨d, h.dictionary, rfl⟩))
    (fun b hc => (hT _ _ hc).elim (fun hc => hc.2 (h.isTableAt_iff.2 rfl))
      fun hc => hc (.inr (.inl (h.isTableAt_iff.2 rfl))))
    fun b hb x hx a ha => ⟨hlinks b hb x hx a ha _ (by decide), hlinks b hb x hx a ha _ (by decide)⟩
  have hkept := fun name => h.kept he.before he.after h'
    (@found_renames σ _ _ name (hall _ (Nat.mod_lt (symbolHash name).toNat h.pos)))
  refine ⟨⟨d', t', n, chains', h'.toTabulates, fun b hb x' hx' => ?_⟩, fun name => (hkept name).1,
    fun name _ => (hkept name).2, fun name link hnone hlink => ?_⟩
  · obtain ⟨x, hx, hren⟩ := exists_renamed (hall b hb) hx'
    exact hren.name ▸ hnamed b hb x hx
  · cases ((hkept name).2 hnone).symm.trans hlink

theorem GrowsBy.trans (hp : Persists σ m.memory m₁.memory) (hm₁ : m₁.WellFormed)
    (hp' : Persists τ m₁.memory m₂.memory) (h : m.GrowsBy names σ m₁)
    (h' : m₁.GrowsBy names' τ m₂) :
    m.GrowsBy (fun name => names name ∨ names' name) (σ.followedBy τ) m₂ where
  sound := h'.sound
  kept := fun name link hlink => by
    obtain ⟨link', hlink', hren⟩ := h.kept name link hlink
    obtain ⟨link'', hlink'', hren'⟩ := h'.kept name link' hlink'
    exact ⟨link'', hlink'', hren.followedBy hren'⟩
  absent := fun name hnot hnone =>
    h'.absent name (fun hc => hnot (.inr hc)) (h.absent name (fun hc => hnot (.inl hc)) hnone)
  fresh := fun name link'' hnone hlink'' v hv => by
    obtain ⟨u, hvu, hu⟩ := hp.split hv
    rcases h.sound.findSymbolLink_cases hm₁ name with hnone' | ⟨link', hlink'⟩
    · exact h'.fresh name link'' hnone' hlink'' u hu
    · obtain ⟨w, hw, hren⟩ := h'.kept name link' hlink'
      obtain rfl := Option.some.inj (Except.ok.inj (hw.symm.trans hlink''))
      obtain rfl := (hp'.eq_iff hu hren).2 rfl
      exact h.fresh name _ hnone hlink' v hvu

theorem GrowsBy.mono (h : m.GrowsBy names σ m₁) (hle : ∀ name, names name → names' name) :
    m.GrowsBy names' σ m₁ :=
  { h with absent := fun name hnot => h.absent name (mt (hle name) hnot) }

/-- The table stays the table, if it is not the dictionary itself that is touched. -/
theorem SoundTable.isTableAt (h : m.SoundTable) (he : m.Edits T K σ m₁)
    (hT : ∀ x, (m.registers.get .smalltalk).IsAt x → ¬ T x Dictionary.table) :
    ∃ t t' : Address, (∀ x, m.IsTableAt x ↔ x = t.offset) ∧ (∀ x, m₁.IsTableAt x ↔ x = t'.offset) ∧
      σ t.offset t'.offset := by
  obtain ⟨d, t, n, chains, h, -⟩ := h.hasTable he.before
  have hdictionary := he.constants .smalltalk (by decide)
  rw [h.dictionary] at hdictionary
  obtain ⟨d', hd', hdd'⟩ := hdictionary.of_ref
  obtain ⟨u, hu, htable⟩ := he.getPtr (.ref hdd') h.table fun a ha =>
    hT _ ⟨a, h.dictionary.trans ha, rfl⟩
  obtain ⟨t', rfl, htt'⟩ := htable.of_ref
  refine ⟨t, t', fun x => h.isTableAt_iff, fun x => ?_, htt'⟩
  unfold IsTableAt
  rw [hd', hu]
  constructor
  · rintro ⟨t'', ht'', rfl⟩
    rw [Value.ref.inj (Except.ok.inj ht'')]
  · rintro rfl
    exact ⟨t', rfl, rfl⟩

/-- The table is made of what it was made of, and of new links. -/
theorem SoundTable.inTable (h : m.SoundTable) (he : m.Edits T K σ m₁)
    (hgrows : m.GrowsBy names σ m₁)
    (hT : ∀ x, (m.registers.get .smalltalk).IsAt x → ¬ T x Dictionary.table) {x x' : Nat}
    (hx : σ x x') (hx' : m₁.InTable x') : m.InTable x := by
  have hat : ∀ {v w : Value}, Value.Renames σ v w → w.IsAt x' → v.IsAt x := by
    intro v w hvw hw
    obtain ⟨b, rfl, rfl⟩ := hw
    cases hvw with
    | @ref a _ hab => exact ⟨a, rfl, he.persists.injective _ _ _ hab hx⟩
  rcases hx' with hx' | hx' | ⟨name, link', hlink', hx'⟩
  · exact .inl (hat (he.constants .smalltalk (by decide)) hx')
  · obtain ⟨t, t', ht, ht', htt'⟩ := h.isTableAt he hT
    refine .inr (.inl ((ht x).2 ?_))
    rw [(ht' x').1 hx'] at hx
    exact he.persists.injective _ _ _ hx htt'
  · rcases h.findSymbolLink_cases he.before name with hnone | ⟨link, hlink⟩
    · obtain ⟨b, rfl, rfl⟩ := hx'
      refine absurd (Value.Renames.ref (a := ⟨x, ?_⟩) hx) (hgrows.fresh name _ hnone hlink' _)
      exact he.before.memory.header_lt (he.persists.domain _ _ hx)
    · obtain ⟨w, hw, hren⟩ := hgrows.kept name link hlink
      obtain rfl := Option.some.inj (Except.ok.inj (hw.symm.trans hlink'))
      exact .inr (.inr ⟨name, link, hlink, hat hren hx'⟩)

/-! ### Values that are held do not matter -/

theorem findInChain_withScratch {scratch : Array Value} {test : Value → Except Fault Bool}
    (steps : Nat) (v : Value) :
    (m.withScratch scratch).findInChain test steps v = m.findInChain test steps v := by
  induction steps generalizing v with
  | zero => rfl
  | succ k ih =>
    simp only [findInChain, ih]
    rfl

theorem findSymbolLink_withScratch {scratch : Array Value} (name : List UInt8) :
    (m.withScratch scratch).findSymbolLink name = m.findSymbolLink name := by
  unfold Machine.findSymbolLink
  simp only [findInChain_withScratch]
  rfl

theorem inTable_withScratch {scratch : Array Value} {x : Nat} :
    (m.withScratch scratch).InTable x ↔ m.InTable x := by
  unfold InTable
  simp only [findSymbolLink_withScratch]
  rfl

theorem Chain.withScratch {scratch : Array Value} {tags : List Tag} (h : m.Chain v tags) :
    (m.withScratch scratch).Chain v tags := by
  induction h with
  | nil => exact .nil
  | cons hlink hkey hspells hnext _ ih =>
    refine .cons hlink hkey ?_ hnext ih
    cases ‹Option (List UInt8)› with
    | none => exact hspells
    | some name => exact hspells

theorem SoundTable.withScratch {scratch : Array Value} (h : m.SoundTable) :
    (m.withScratch scratch).SoundTable := by
  obtain ⟨d, t, n, chains, h, hnamed⟩ := h
  refine ⟨d, t, n, chains, { h with chain := fun b hb => ?_ }, hnamed⟩
  obtain ⟨head, hhead, hchain⟩ := h.chain b hb
  exact ⟨head, hhead, hchain.withScratch⟩

theorem GrowsBy.withScratch {scratch scratch' : Array Value}
    (h : (m.withScratch scratch).GrowsBy names σ m₁) :
    m.GrowsBy names σ (m₁.withScratch scratch') where
  sound := h.sound.withScratch
  kept := by
    intro name link hlink
    rw [findSymbolLink_withScratch]
    exact h.kept name link ((findSymbolLink_withScratch name).trans hlink)
  absent := by
    intro name hnot hnone
    rw [findSymbolLink_withScratch]
    exact h.absent name hnot ((findSymbolLink_withScratch name).trans hnone)
  fresh := by
    intro name link hnone hlink
    rw [findSymbolLink_withScratch] at hlink
    exact h.fresh name link ((findSymbolLink_withScratch name).trans hnone) hlink

/-- **Interning a name.** -/
theorem intern_eq_ok (hm : m.WellFormed) (h : m.SoundTable) (hrun : intern name m = .ok v m₁) :
    ∃ σ, m.Edits (fun x _ => m.IsTableAt x) [] σ m₁ ∧ m.GrowsBy (· = name) σ m₁ ∧
      m₁.findSymbolLink name = .ok (some v) ∧
      (m.findSymbolLink name = .ok none → m₁.memory.getPtr v Link.value = .ok m₁.nil) := by
  unfold intern at hrun
  obtain ⟨link?, hfind, hrun⟩ := read_bind_eq_ok hrun
  cases link? with
  | some link =>
    cases hrun
    have he : m.Edits untouched [] m.memory.unmoved m := .refl hm
    refine ⟨_, .refl hm, (h.edits he fun _ _ hc => absurd hc id).mono fun _ hc =>
      absurd hc id, hfind, fun hnone => ?_⟩
    cases hnone.symm.trans hfind
  | none =>
    obtain ⟨d, t, n, chains, h, hnamed⟩ := h.hasTable hm
    have hb : (symbolHash name).toNat % n < n := Nat.mod_lt _ h.pos
    have hnone := Except.ok.inj ((h.findSymbolLink hm name).symm.trans hfind)
    obtain ⟨σ, d', t', chains', he, -, -, hall, h', hnew, hvalue⟩ :=
      addSymbolLink_eq_ok hm h hnone hrun
    have hm₁ := he.after
    have hfound : ∀ name', name' ≠ name → Option.Rel (Value.Renames σ)
        (found (chains ((symbolHash name').toNat % n)) name')
        (found (Function.update chains' ((symbolHash name).toNat % n)
          (⟨v, some name⟩ :: chains' ((symbolHash name).toNat % n))
          ((symbolHash name').toNat % n)) name') := by
      intro name' hne
      have hb' : (symbolHash name').toNat % n < n := Nat.mod_lt _ h.pos
      by_cases hbb : (symbolHash name').toNat % n = (symbolHash name).toNat % n
      · rw [hbb, Function.update_self, found_cons_of_ne fun hc => hne (Option.some.inj hc).symm]
        exact found_renames (hall _ hb)
      · rw [Function.update_of_ne hbb]
        exact found_renames (hall _ hb')
    refine ⟨σ, he.mono (fun x _ hx => h.isTableAt_iff.2 hx) (List.Subset.refl _),
      ⟨⟨d', t', n, _, h'.toTabulates, fun b hb x' hx' => ?_⟩, fun name' link hlink => ?_,
        fun name' hne hnone' => ?_, fun name' link hnone' hlink => ?_⟩, ?_, fun _ => hvalue⟩
    · by_cases hbb : b = (symbolHash name).toNat % n
      · subst hbb
        rw [Function.update_self] at hx'
        rcases List.mem_cons.1 hx' with rfl | hx'
        · rfl
        · obtain ⟨x, hx, hren⟩ := exists_renamed (hall _ hb) hx'
          exact hren.name ▸ hnamed _ hb x hx
      · rw [Function.update_of_ne hbb] at hx'
        obtain ⟨x, hx, hren⟩ := exists_renamed (hall b hb) hx'
        exact hren.name ▸ hnamed b hb x hx
    · have hne : name' ≠ name := by
        rintro rfl
        cases hlink.symm.trans hfind
      exact (h.kept hm hm₁ h' (hfound name' hne)).1 link hlink
    · exact (h.kept hm hm₁ h' (hfound name' hne)).2 hnone'
    · by_cases hne : name' = name
      · obtain ⟨a, rfl, hfresh⟩ := hnew
        rw [hne, h'.findSymbolLink hm₁, Function.update_self, found_cons_of_eq rfl] at hlink
        obtain rfl := Option.some.inj (Except.ok.inj hlink)
        exact fun v hv => hv.ne_new hfresh rfl
      · cases ((h.kept hm hm₁ h' (hfound name' hne)).2 hnone').symm.trans hlink
    · rw [h'.findSymbolLink hm₁, Function.update_self, found_cons_of_eq rfl]

end Sound

end Machine

end Smalltalk
