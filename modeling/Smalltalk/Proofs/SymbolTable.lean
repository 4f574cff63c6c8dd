import Smalltalk.Proofs.Interning

/-!
# Symbols and globals over time

There is one symbol for each spelling, and the globals are a finite map from names to values. Both
are told from the links that are found for names. Whatever is done with the table, a link that was
found for a name is found for it afterwards, wherever it has been moved, with the same key. Its
value is what it was unless something is assigned to this name, and a link that is new has the value
nil.

So the operations compose: what becomes of the binding of a name is decided by the operations on
that name, and by those alone.

## Main definitions

* `TableOperation`, `Machine.Performs`: operations on the table, one after the other
* `Machine.Updates`: what they may do to bindings
* `Machine.Carried`: what has become of a binding to which nothing was assigned

## Main results

* `TableOperation.updates`, `Machine.Performs.updates`: one operation, and all of them
* `symbols_unique_and_globals_a_finite_map`
-/

namespace Smalltalk

open Memory Machine Layout

/-! ## Operations -/

/-- What is done with symbols and globals. -/
inductive TableOperation where
  | newSymbol (name : String)
  | globalLink (name : String)
  | setGlobal (name : String) (value : Value)
  | lookupGlobal (name : String)
  | globalValue (name : String)
  | collect

namespace TableOperation

/-- Performs an operation, and gives its answer if it has one. -/
def run : TableOperation → Exec (Option Value)
  | .newSymbol name => do return some (← Machine.newSymbol name)
  | .globalLink name => do return some (← Machine.globalLink name)
  | .setGlobal name value => do
    Machine.setGlobal name value
    return none
  | .lookupGlobal name => Machine.read (·.lookupGlobal name)
  | .globalValue name => Machine.read (·.globalValue name)
  | .collect => do
    collectGarbage
    return none

/-- A name is known once the operation has been performed. -/
def Interns (name : List UInt8) : TableOperation → Prop
  | .newSymbol other | .globalLink other | .setGlobal other _ => Text.utf8 other = name
  | .lookupGlobal _ | .globalValue _ | .collect => False

/-- The operation assigns to a name. -/
def Assigns (name : List UInt8) : TableOperation → Prop
  | .setGlobal other _ => Text.utf8 other = name
  | .newSymbol _ | .globalLink _ | .lookupGlobal _ | .globalValue _ | .collect => False

instance decidableAssigns (name : List UInt8) :
    (op : TableOperation) → Decidable (op.Assigns name)
  | .setGlobal other _ => inferInstanceAs (Decidable (Text.utf8 other = name))
  | .newSymbol _ | .globalLink _ | .lookupGlobal _ | .globalValue _ | .collect => instDecidableFalse

/-- What is assigned is a value of the machine. -/
def Applies (m : Machine) : TableOperation → Prop
  | .setGlobal _ value => m.memory.Holds value
  | .newSymbol _ | .globalLink _ | .lookupGlobal _ | .globalValue _ | .collect => True

end TableOperation

namespace Machine

/-- Operations are performed one after the other. -/
inductive Performs : Machine → List TableOperation → Machine → Prop
  | nil (m : Machine) : Performs m [] m
  | cons {m m₁ m₂ : Machine} {op : TableOperation} {ops : List TableOperation}
      {answer : Option Value}
      (happlies : op.Applies m) (hrun : op.run m = .ok answer m₁) (hrest : Performs m₁ ops m₂) :
      Performs m (op :: ops) m₂

/-! ## What becomes of bindings -/

/-- Some names have become known, and to some of them something was assigned. Otherwise, bindings
are what they were. -/
structure Updates (known assigned : List UInt8 → Prop) (σ : Renaming) (m m₁ : Machine) : Prop where
  follows : m.Follows [] σ m₁
  wellFormed : m₁.WellFormed
  grows : m.GrowsBy known σ m₁
  found : ∀ name, known name → ∃ link, m₁.findSymbolLink name = .ok (some link)
  key : ∀ name link link' v, m.findSymbolLink name = .ok (some link) →
    m₁.findSymbolLink name = .ok (some link') → m.memory.getPtr link Link.key = .ok v →
    ∃ v', m₁.memory.getPtr link' Link.key = .ok v' ∧ Value.Renames σ v v'
  value : ∀ name link link' v, ¬ assigned name → m.findSymbolLink name = .ok (some link) →
    m₁.findSymbolLink name = .ok (some link') → m.memory.getPtr link Link.value = .ok v →
    ∃ v', m₁.memory.getPtr link' Link.value = .ok v' ∧ Value.Renames σ v v'
  new : ∀ name link', ¬ assigned name → m.findSymbolLink name = .ok none →
    m₁.findSymbolLink name = .ok (some link') → m₁.memory.getPtr link' Link.value = .ok m₁.nil

section Updates

variable {known known' assigned assigned' : List UInt8 → Prop} {σ τ : Renaming} {m m₁ m₂ : Machine}
  {T : Nat → Nat → Prop} {name : List UInt8} {link v : Value}

/-- Edits touch links only where something is assigned. -/
theorem Updates.of_edits (he : m.Edits T [] σ m₁) (hgrows : m.GrowsBy known σ m₁)
    (hfound : ∀ name, known name → ∃ link, m₁.findSymbolLink name = .ok (some link))
    (hT : ∀ name link (a : Address) i, m.findSymbolLink name = .ok (some link) → link = .ref a →
      T a.offset i → i = Link.value ∧ assigned name)
    (hnew : ∀ name link', ¬ assigned name → m.findSymbolLink name = .ok none →
      m₁.findSymbolLink name = .ok (some link') → m₁.memory.getPtr link' Link.value = .ok m₁.nil) :
    m.Updates known assigned σ m₁ := by
  have hmoved : ∀ {name link link'}, m.findSymbolLink name = .ok (some link) →
      m₁.findSymbolLink name = .ok (some link') → Value.Renames σ link link' := by
    intro name link link' hlink hlink'
    obtain ⟨link'', hlink'', hren⟩ := hgrows.kept name link hlink
    obtain rfl := Option.some.inj (Except.ok.inj (hlink'.symm.trans hlink''))
    exact hren
  refine ⟨he.toFollows, he.after, hgrows, hfound, ?key, ?value, hnew⟩
  case key =>
    intro name link link' v hlink hlink' hv
    exact he.getPtr (hmoved hlink hlink') hv fun a ha hc =>
      absurd (hT name link a _ hlink ha hc).1 (by decide)
  case value =>
    intro name link link' v hnot hlink hlink' hv
    exact he.getPtr (hmoved hlink hlink') hv fun a ha hc => hnot (hT name link a _ hlink ha hc).2

/-- Nothing is done to the table. -/
theorem Updates.of_untouched (hs : m.SoundTable) (he : m.Edits untouched [] σ m₁) :
    m.Updates (fun _ => False) (fun _ => False) σ m₁ := by
  have hgrows := hs.edits he fun _ _ hc => absurd hc id
  refine .of_edits he hgrows (fun _ hc => absurd hc id) (fun _ _ _ _ _ _ hc => absurd hc id) ?_
  intro name link' _ hnone hlink'
  cases (hgrows.absent name id hnone).symm.trans hlink'

/-- **Updates compose.** -/
theorem Updates.trans (hm : m.WellFormed) (h : m.Updates known assigned σ m₁)
    (h' : m₁.Updates known' assigned' τ m₂) :
    m.Updates (fun name => known name ∨ known' name) (fun name => assigned name ∨ assigned' name)
      (σ.followedBy τ) m₂ where
  follows := h.follows.trans hm.memory h'.follows
  wellFormed := h'.wellFormed
  grows := h.grows.trans (h.follows.toRetains.persists hm.memory) h.wellFormed
    (h'.follows.toRetains.persists h.wellFormed.memory) h'.grows
  found := by
    rintro name (hname | hname)
    · obtain ⟨link, hlink⟩ := h.found name hname
      obtain ⟨link', hlink', -⟩ := h'.grows.kept name link hlink
      exact ⟨link', hlink'⟩
    · exact h'.found name hname
  key := by
    intro name link link'' v hlink hlink'' hv
    obtain ⟨link', hlink', -⟩ := h.grows.kept name link hlink
    obtain ⟨v', hv', hren⟩ := h.key name link link' v hlink hlink' hv
    obtain ⟨v'', hv'', hren'⟩ := h'.key name link' link'' v' hlink' hlink'' hv'
    exact ⟨v'', hv'', hren.followedBy hren'⟩
  value := by
    intro name link link'' v hnot hlink hlink'' hv
    obtain ⟨link', hlink', -⟩ := h.grows.kept name link hlink
    obtain ⟨v', hv', hren⟩ := h.value name link link' v (mt .inl hnot) hlink hlink' hv
    obtain ⟨v'', hv'', hren'⟩ := h'.value name link' link'' v' (mt .inr hnot) hlink' hlink'' hv'
    exact ⟨v'', hv'', hren.followedBy hren'⟩
  new := by
    intro name link'' hnot hnone hlink''
    rcases h.grows.sound.findSymbolLink_cases h.wellFormed name with hnone' | ⟨link', hlink'⟩
    · exact h'.new name link'' (mt .inr hnot) hnone' hlink''
    · have hnil := h.new name link' (mt .inl hnot) hnone hlink'
      obtain ⟨v'', hv'', hren⟩ := h'.value name link' link'' _ (mt .inr hnot) hlink' hlink'' hnil
      rw [hv'', (h'.follows.nil_iff h.wellFormed.memory hren).1 rfl]

theorem Updates.mono (h : m.Updates known assigned σ m₁) (hknown : ∀ name, known name ↔ known' name)
    (hassigned : ∀ name, assigned name → assigned' name) : m.Updates known' assigned' σ m₁ :=
  { h with
    grows := h.grows.mono fun name => (hknown name).1
    found := fun name hname => h.found name ((hknown name).2 hname)
    value := fun name link link' v hnot => h.value name link link' v (mt (hassigned name) hnot)
    new := fun name link' hnot => h.new name link' (mt (hassigned name) hnot) }

theorem Updates.withScratch {scratch scratch' : Array Value}
    (h : (m.withScratch scratch).Updates known assigned σ m₁)
    (he : m.Edits T [] σ (m₁.withScratch scratch')) :
    m.Updates known assigned σ (m₁.withScratch scratch') := by
  have hbefore : ∀ {name answer}, m.findSymbolLink name = answer →
      (m.withScratch scratch).findSymbolLink name = answer :=
    fun hfind => (findSymbolLink_withScratch _).trans hfind
  have hafter : ∀ {name answer}, (m₁.withScratch scratch').findSymbolLink name = answer →
      m₁.findSymbolLink name = answer :=
    fun hfind => (findSymbolLink_withScratch _).symm.trans hfind
  refine ⟨he.toFollows, he.after, h.grows.withScratch, fun name hname => ?_,
    fun name link link' v hlink hlink' => h.key name link link' v (hbefore hlink) (hafter hlink'),
    fun name link link' v hnot hlink hlink' =>
      h.value name link link' v hnot (hbefore hlink) (hafter hlink'),
    fun name link' hnot hnone hlink' => h.new name link' hnot (hbefore hnone) (hafter hlink')⟩
  rw [findSymbolLink_withScratch]
  exact h.found name hname

/-! ## Operations, one by one -/

/-- A name is interned. -/
theorem intern_updates (hm : m.WellFormed) (hs : m.SoundTable) (hrun : intern name m = .ok v m₁) :
    ∃ σ, m.Updates (· = name) (fun _ => False) σ m₁ ∧ m.Edits (fun x _ => m.IsTableAt x) [] σ m₁ ∧
      m₁.findSymbolLink name = .ok (some v) := by
  obtain ⟨σ, he, hgrows, hfind, hnil⟩ := intern_eq_ok hm hs hrun
  refine ⟨σ, .of_edits he hgrows ?_ ?_ ?_, he, hfind⟩
  · rintro _ rfl
    exact ⟨v, hfind⟩
  · intro name' link a i hlink ha hc
    exact absurd hc ((hs.isLinkOf hm hlink).ne_table a ha)
  · intro name' link' _ hnone hlink'
    by_cases hname : name' = name
    · subst hname
      obtain rfl := Option.some.inj (Except.ok.inj (hlink'.symm.trans hfind))
      exact hnil hnone
    · cases (hgrows.absent name' hname hnone).symm.trans hlink'

/-- A value is assigned to the global of a link. -/
theorem assign_updates (hm : m.WellFormed) (hs : m.SoundTable)
    (hlink : m.findSymbolLink name = .ok (some link)) (hv : m.memory.Holds v)
    (hset : Machine.setPtr link Link.value v m = .ok () m₁) :
    m.Updates (fun _ => False) (· = name) m.memory.unmoved m₁ := by
  have hlinked := hs.isLinkOf hm hlink
  have he : m.Edits (fun x i => link.IsAt x ∧ i = Link.value) [] m.memory.unmoved m₁ :=
    (Edits.refl hm).setPtr hlinked.held hv hset fun a x ha hx => ⟨⟨a, ha, hx.2.symm⟩, rfl⟩
  have hgrows := hs.edits he fun x i hx => by
    obtain ⟨⟨a, ha, rfl⟩, hi⟩ := hx
    exact .inl ⟨hi, hlinked.ne_table a ha⟩
  refine .of_edits he hgrows (fun _ hc => absurd hc id) ?_ ?_
  · rintro name' link' a i hlink' ha ⟨⟨b, hb, hab⟩, hi⟩
    have hsame : link' = link := ha.trans (hb.trans (congrArg Value.ref (Address.ext hab))).symm
    exact ⟨hi, (hs.isLinkOf hm hlink').name_inj (hsame ▸ hlinked)⟩
  · intro name' link' _ hnone hlink'
    cases (hgrows.absent name' id hnone).symm.trans hlink'

/-- **Assigning to a global.** -/
theorem setGlobal_eq_ok (hm : m.WellFormed) (hs : m.SoundTable) {spelling : String}
    (hv : m.memory.Holds v) (hrun : setGlobal spelling v m = .ok () m₁) :
    ∃ σ, m.Updates (· = Text.utf8 spelling) (· = Text.utf8 spelling) σ m₁ ∧
      ∃ v', m₁.globalValue spelling = .ok (some v') ∧ Value.Renames σ v v' := by
  obtain ⟨⟨link, w⟩, m₂, hhold, hset⟩ := bind_eq_ok hrun
  have hset : Machine.setPtr link Link.value w m₂ = .ok () m₁ := hset
  obtain ⟨m₃, hintern, hm₂, hheld⟩ := holding_eq_ok hm hhold
  obtain ⟨σ, hupdates, he, hfind⟩ := intern_updates (hm.hold hv) hs.withScratch hintern
  obtain ⟨he₂, hren⟩ := hheld _ _ _ he
  have hupdates₂ : m.Updates (· = Text.utf8 spelling) (fun _ => False) σ m₂ := by
    rw [hm₂] at he₂ ⊢
    exact hupdates.withScratch he₂
  have hfind₂ : m₂.findSymbolLink (Text.utf8 spelling) = .ok (some link) := by
    rw [hm₂, findSymbolLink_withScratch]
    exact hfind
  have hlink := (hupdates₂.grows.sound.isLinkOf he₂.after hfind₂).held
  have hassigned := assign_updates he₂.after hupdates₂.grows.sound hfind₂ (he₂.holds hren) hset
  have hall := hupdates₂.trans hm hassigned
  rw [he₂.persists.followedBy_unmoved] at hall
  refine ⟨σ, hall.mono (fun name => or_iff_left id) fun name hname => hname.resolve_left id, w, ?_,
    hren⟩
  obtain ⟨link', hlink', hsame⟩ := hassigned.grows.kept _ link hfind₂
  obtain rfl := hsame.eq_of_fixed fun _ _ hab => hab.2
  unfold globalValue lookupGlobal
  rw [hlink']
  show (m₁.memory.getPtr link Link.value >>= _) = _
  rw [getPtr_after_setPtr he₂.after hlink (he₂.holds hren) hset hlink, if_pos ⟨rfl, rfl⟩]
  rfl

end Updates

/-! ## All operations -/

/-- What has become of the binding of a name to which nothing was assigned: it is what it was, or
the name has become known and its value is nil. -/
def Carried (interned : Prop) (σ : Renaming) (m m₁ : Machine) (spelling : String) : Prop :=
  match m.globalValue spelling with
  | .ok (some v) => ∃ v', m₁.globalValue spelling = .ok (some v') ∧ Value.Renames σ v v'
  | .ok none => (interned → m₁.globalValue spelling = .ok (some m₁.nil)) ∧
      (¬ interned → m₁.globalValue spelling = .ok none)
  | .error _ => False

section All

variable {known assigned : List UInt8 → Prop} {σ : Renaming} {m m₁ : Machine} {spelling : String}

theorem globalValue_of_none (h : m.findSymbolLink (Text.utf8 spelling) = .ok none) :
    m.globalValue spelling = .ok none := by
  unfold globalValue lookupGlobal
  rw [h]
  rfl

theorem globalValue_of_some {link v : Value}
    (h : m.findSymbolLink (Text.utf8 spelling) = .ok (some link))
    (hv : m.memory.getPtr link Link.value = .ok v) : m.globalValue spelling = .ok (some v) := by
  unfold globalValue lookupGlobal
  rw [h]
  show (m.memory.getPtr link Link.value >>= _) = _
  rw [hv]
  rfl

/-- Bindings as they are read. -/
theorem Updates.carried (hm : m.WellFormed) (hs : m.SoundTable) (h : m.Updates known assigned σ m₁)
    (hnot : ¬ assigned (Text.utf8 spelling)) :
    m.Carried (known (Text.utf8 spelling)) σ m₁ spelling := by
  unfold Carried
  rcases hs.findSymbolLink_cases hm (Text.utf8 spelling) with hnone | ⟨link, hlink⟩
  · rw [globalValue_of_none hnone]
    refine ⟨fun hknown => ?_, fun hunknown => globalValue_of_none (h.grows.absent _ hunknown hnone)⟩
    obtain ⟨link', hlink'⟩ := h.found _ hknown
    exact globalValue_of_some hlink' (h.new _ link' hnot hnone hlink')
  · obtain ⟨v, hv⟩ := (hs.isLinkOf hm hlink).value
    rw [globalValue_of_some hlink hv]
    obtain ⟨link', hlink', -⟩ := h.grows.kept _ link hlink
    obtain ⟨v', hv', hren⟩ := h.value _ link link' v hnot hlink hlink' hv
    exact ⟨v', globalValue_of_some hlink' hv', hren⟩

/-- **Making a symbol.** -/
theorem newSymbol_eq_ok (hm : m.WellFormed) (hs : m.SoundTable) {s : Value}
    (hrun : newSymbol spelling m = .ok s m₁) :
    ∃ σ link, m.Updates (· = Text.utf8 spelling) (fun _ => False) σ m₁ ∧
      m₁.findSymbolLink (Text.utf8 spelling) = .ok (some link) ∧
      m₁.memory.getPtr link Link.key = .ok s := by
  obtain ⟨link, m₂, hintern, hkey⟩ := bind_eq_ok hrun
  obtain ⟨hkey, rfl⟩ := read_eq_ok hkey
  obtain ⟨σ, hupdates, -, hfind⟩ := intern_updates hm hs hintern
  exact ⟨σ, link, hupdates, hfind, hkey⟩

end All

end Machine

/-- **What an operation does to bindings.** -/
theorem TableOperation.updates {m m₁ : Machine} {op : TableOperation} {answer : Option Value}
    (hm : m.WellFormed) (hs : m.SoundTable) (happlies : op.Applies m)
    (hrun : op.run m = .ok answer m₁) :
    ∃ σ, m.Updates (fun name => op.Interns name) (fun name => op.Assigns name) σ m₁ := by
  have hsame : ∀ name other : List UInt8, name = other ↔ other = name := fun _ _ => eq_comm
  have hnothing : m.Updates (fun _ => False) (fun _ => False) m.memory.unmoved m :=
    .of_untouched hs (.refl hm)
  cases op with
  | newSymbol spelling =>
    obtain ⟨s, m₂, hsymbol, h⟩ := bind_eq_ok hrun
    cases h
    obtain ⟨σ, -, hupdates, -⟩ := newSymbol_eq_ok hm hs hsymbol
    exact ⟨σ, hupdates.mono (fun name => hsame name _) fun _ => id⟩
  | globalLink spelling =>
    obtain ⟨link, m₂, hlink, h⟩ := bind_eq_ok hrun
    cases h
    obtain ⟨σ, hupdates, -⟩ := intern_updates hm hs hlink
    exact ⟨σ, hupdates.mono (fun name => hsame name _) fun _ => id⟩
  | setGlobal spelling v =>
    obtain ⟨_, m₂, hset, h⟩ := bind_eq_ok hrun
    cases h
    obtain ⟨σ, hupdates, -⟩ := setGlobal_eq_ok hm hs happlies hset
    exact ⟨σ, hupdates.mono (fun name => hsame name _) fun name => (hsame name _).1⟩
  | lookupGlobal spelling =>
    obtain ⟨-, rfl⟩ := read_eq_ok (f := (·.lookupGlobal spelling)) hrun
    exact ⟨_, hnothing⟩
  | globalValue spelling =>
    obtain ⟨-, rfl⟩ := read_eq_ok (f := (·.globalValue spelling)) hrun
    exact ⟨_, hnothing⟩
  | collect =>
    obtain ⟨_, m₂, hcollect, h⟩ := bind_eq_ok hrun
    cases h
    obtain ⟨σ, m₂, hcollect', hshifted, -⟩ := collectGarbage_eq hm
    rw [hcollect'] at hcollect
    cases hcollect
    exact ⟨σ, .of_untouched hs (hshifted.edits hm)⟩

/-- **What operations do to bindings**, one after the other. -/
theorem Machine.Performs.updates {m m₁ : Machine} {ops : List TableOperation}
    (h : m.Performs ops m₁) (hm : m.WellFormed) (hs : m.SoundTable) :
    ∃ σ, m.Updates (fun name => ∃ op ∈ ops, op.Interns name) (fun name => ∃ op ∈ ops,
      op.Assigns name) σ m₁ := by
  induction h with
  | nil m =>
    exact ⟨_, (Updates.of_untouched hs (.refl hm)).mono (fun _ => by simp) fun _ hc => absurd hc id⟩
  | @cons m m₁ m₂ op ops answer happlies hrun hrest ih =>
    obtain ⟨σ, hupdates⟩ := TableOperation.updates hm hs happlies hrun
    obtain ⟨τ, hupdates'⟩ := ih hupdates.wellFormed hupdates.grows.sound
    exact ⟨_, (hupdates.trans hm hupdates').mono (fun _ => by simp) fun _ => by simp⟩

/-- **Symbols are unique, and globals are a finite map.** Whatever is done, the table stays in
order. A binding to which nothing is assigned stays what it is, and a name that becomes known has
the value nil. A binding to which something is assigned has that value until something else is
assigned to it. Two symbols are the same object exactly if they are spelled alike. -/
theorem symbols_unique_and_globals_a_finite_map (m m₁ : Machine) (ops : List TableOperation)
    (hm : m.WellFormed) (hs : m.SoundTable) (hops : m.Performs ops m₁) :
    m₁.WellFormed ∧ m₁.SoundTable ∧
    (∃ σ, m.Follows [] σ m₁ ∧
      ∀ spelling, (∀ op ∈ ops, ¬ op.Assigns (Text.utf8 spelling)) →
        m.Carried (∃ op ∈ ops, op.Interns (Text.utf8 spelling)) σ m₁ spelling) ∧
    (∀ spelling v m₂ ops' m₃, m₁.memory.Holds v → setGlobal spelling v m₁ = .ok () m₂ →
      m₂.Performs ops' m₃ → (∀ op ∈ ops', ¬ op.Assigns (Text.utf8 spelling)) →
      ∃ σ v', m₁.Follows [] σ m₃ ∧ m₃.globalValue spelling = .ok (some v') ∧
        Value.Renames σ v v') ∧
    ∀ a b s s' m₂ ops' m₃ m₄, newSymbol a m₁ = .ok s m₂ → m₂.Performs ops' m₃ →
      newSymbol b m₃ = .ok s' m₄ →
      ∃ σ s₁, m₂.Follows [] σ m₄ ∧ Value.Renames σ s s₁ ∧
        (s₁ = s' ↔ Text.utf8 a = Text.utf8 b) := by
  obtain ⟨σ, hupdates⟩ := hops.updates hm hs
  have hm₁ := hupdates.wellFormed
  have hs₁ := hupdates.grows.sound
  refine ⟨hm₁, hs₁, ⟨σ, hupdates.follows, fun spelling hnot => ?_⟩, ?_, ?_⟩
  · exact hupdates.carried hm hs fun ⟨op, hop, hc⟩ => hnot op hop hc
  · intro spelling v m₂ ops' m₃ hv hset hops' hnot
    obtain ⟨σ, hassigned, v', hv', hren⟩ := setGlobal_eq_ok hm₁ hs₁ hv hset
    have hm₂ := hassigned.wellFormed
    have hs₂ := hassigned.grows.sound
    obtain ⟨τ, hupdates'⟩ := hops'.updates hm₂ hs₂
    have hcarried := hupdates'.carried hm₂ hs₂ fun ⟨op, hop, hc⟩ => hnot op hop hc
    unfold Carried at hcarried
    rw [hv'] at hcarried
    obtain ⟨v'', hv'', hren'⟩ := hcarried
    exact ⟨_, v'', hassigned.follows.trans hm₁.memory hupdates'.follows, hv'',
      hren.followedBy hren'⟩
  · intro a b s s' m₂ ops' m₃ m₄ hfirst hops' hsecond
    obtain ⟨_, link, hmade, hlink, hkey⟩ := newSymbol_eq_ok hm₁ hs₁ hfirst
    have hm₂ := hmade.wellFormed
    obtain ⟨τ, hupdates'⟩ := hops'.updates hm₂ hmade.grows.sound
    obtain ⟨ρ, link', hmade', hlink', hkey'⟩ :=
      newSymbol_eq_ok hupdates'.wellFormed hupdates'.grows.sound hsecond
    have hall := hupdates'.trans hm₂ hmade'
    obtain ⟨link₁, hlink₁, -⟩ := hall.grows.kept _ link hlink
    obtain ⟨s₁, hs₁, hren⟩ := hall.key _ link link₁ s hlink hlink₁ hkey
    refine ⟨_, s₁, hall.follows, hren, ?_⟩
    have hlinked := hall.grows.sound.isLinkOf hall.wellFormed hlink₁
    have hlinked' := hall.grows.sound.isLinkOf hall.wellFormed hlink'
    constructor
    · rintro rfl
      exact hlinked.key_inj hlinked' hs₁ hkey'
    · intro hsame
      rw [hsame] at hlink₁
      obtain rfl := Option.some.inj (Except.ok.inj (hlink₁.symm.trans hlink'))
      exact Except.ok.inj (hs₁.symm.trans hkey')

/-! ### A small machine -/

/-- Three objects: nil, the dictionary of globals, and its table, which has one empty chain. -/
def bareTable : Memory :=
  { Memory.empty {} with
    arena := (((Arena.empty.setWord 8 0x40000000).setWord 20 0x40000001).setWord 24 28).setWord 36
      0x40000001
    free := 44 }

/-- A machine that knows no name. -/
def bareTableMachine : Machine :=
  { memory := bareTable, registers := Registers.empty.set .smalltalk (.ref ⟨12, by decide⟩) }

theorem laidOut_bareTable : bareTable.LaidOut [0, 12, 28] := by
  decide +kernel

theorem wellFormed_bareTableMachine : bareTableMachine.WellFormed :=
  laidOut_bareTable.wellFormed_machine (by decide) [(.smalltalk, .ref ⟨12, by decide⟩)] rfl
    (by decide +kernel)

theorem soundTable_bareTableMachine : bareTableMachine.SoundTable := by
  refine ⟨⟨12, by decide⟩, ⟨28, by decide⟩, 1, fun _ => [], ?_, fun _ _ x hx => by cases hx⟩
  constructor
  case dictionary => rfl
  case table => decide +kernel
  case size => decide +kernel
  case pos => decide
  case chain =>
    intro b hb
    obtain rfl : b = 0 := by omega
    exact ⟨bareTableMachine.nil, by decide +kernel, .nil⟩
  case bucket => exact fun _ _ x hx => by cases hx
  case unique => exact fun _ _ => List.nodup_nil
  case apart => decide

/-- Two names become known, the second as a global that has a value, and then there is a
collection. -/
def bareOperations : List TableOperation :=
  [.newSymbol "a", .setGlobal "b" (Value.ofByte 7), .collect]

set_option maxRecDepth 100000 in
theorem answerOf_newSymbol_bareTable :
    (answerOf ((TableOperation.newSymbol "a").run bareTableMachine)).isSome := by
  decide +kernel

set_option maxRecDepth 100000 in
theorem answerOf_setGlobal_bareTable :
    answerOf ((TableOperation.setGlobal "b" (Value.ofByte 7)).run
      (machineOf ((TableOperation.newSymbol "a").run bareTableMachine))) = some none := by
  decide +kernel

theorem symbols_unique_and_globals_a_finite_map_bareTable :
    ∃ m₁, bareTableMachine.Performs bareOperations m₁ ∧ m₁.SoundTable ∧
      m₁.globalValue "a" = .ok (some m₁.nil) := by
  have hm := wellFormed_bareTableMachine
  have hs := soundTable_bareTableMachine
  obtain ⟨answer, hanswer⟩ := Option.isSome_iff_exists.1 answerOf_newSymbol_bareTable
  have hfirst := eq_ok_of_answerOf hanswer
  have hsecond := eq_ok_of_answerOf answerOf_setGlobal_bareTable
  have hnames : bareTableMachine.Performs
      [.newSymbol "a", .setGlobal "b" (Value.ofByte 7)] _ :=
    .cons trivial hfirst (.cons (Holds.small _) hsecond (.nil _))
  obtain ⟨_, hupdates⟩ := hnames.updates hm hs
  obtain ⟨_, m₁, hcollect, -⟩ := collectGarbage_eq hupdates.wellFormed
  have hthird : TableOperation.collect.run (machineOf ((TableOperation.setGlobal "b"
      (Value.ofByte 7)).run (machineOf ((TableOperation.newSymbol "a").run bareTableMachine)))) =
      .ok none m₁ :=
    (bind_of_eq_ok hcollect).trans rfl
  have hall : bareTableMachine.Performs bareOperations m₁ :=
    .cons trivial hfirst (.cons (Holds.small _) hsecond (.cons trivial hthird (.nil m₁)))
  obtain ⟨-, hsound, ⟨_, -, hcarried⟩, -⟩ :=
    symbols_unique_and_globals_a_finite_map _ _ _ hm hs hall
  refine ⟨m₁, hall, hsound, ?_⟩
  have hnew := hcarried "a" (by decide +kernel)
  have hunknown : bareTableMachine.globalValue "a" = .ok none := by decide +kernel
  unfold Carried at hnew
  rw [hunknown] at hnew
  exact hnew.1 ⟨.newSymbol "a", List.mem_cons_self, rfl⟩

end Smalltalk
