import Smalltalk.Proofs.Editing
import Smalltalk.Proofs.Walk
import Mathlib.Data.List.Forall2

/-!
# Dictionaries as maps

A dictionary is an object with a table, an array of chains of links. Each link has a key and a
value. The keys are told apart by identity, and the hash of a key, which an object keeps wherever it
is moved, chooses its chain. All integers have the same hash, so they are in one chain.

What is said here of a machine is which objects a dictionary consists of and which keys and values
its links have. Storing to other objects, and moving objects, leaves a dictionary as it is. To enter
a key stores to the objects of its dictionary only, or makes one more link.

## Main definitions

* `Dict`, `Dict.Part`: a dictionary with the links of its chains, and the objects it consists of
* `Machine.IsMap`: the machine has the dictionary, and it is in order

## Main results

* `Machine.IsMap.dictionaryLookup`: what is found for a key
* `Machine.IsMap.edits`: edits elsewhere leave a dictionary as it is
* `Machine.newDictionary_eq_ok`, `Machine.dictionaryEnter_eq_ok`
* `Machine.Family.enter`: what is entered into one of several dictionaries leaves the others as they
  are
-/

namespace Smalltalk

open Memory Machine Layout

/-- What is on the right of two related lists has something on the left. -/
theorem exists_of_mem_right {α β : Type} {R : α → β → Prop} {xs : List α} {ys : List β}
    (h : List.Forall₂ R xs ys) {y : β} (hy : y ∈ ys) : ∃ x ∈ xs, R x y := by
  induction h with
  | nil => cases hy
  | @cons x y' xs ys hxy _ ih =>
    rcases List.mem_cons.1 hy with rfl | hy
    · exact ⟨x, List.mem_cons_self, hxy⟩
    · obtain ⟨x, hx, hxy⟩ := ih hy
      exact ⟨x, List.mem_cons_of_mem _ hx, hxy⟩

/-- What is on the left has something on the right. -/
theorem exists_of_mem_left {α β : Type} {R : α → β → Prop} {xs : List α} {ys : List β}
    (h : List.Forall₂ R xs ys) {x : α} (hx : x ∈ xs) : ∃ y ∈ ys, R x y :=
  exists_of_mem_right h.flip hx

theorem exists_getElem?_left {α β : Type} {R : α → β → Prop} {xs : List α} {ys : List β}
    (h : List.Forall₂ R xs ys) {i : Nat} {y : β} (hy : ys[i]? = some y) :
    ∃ x, xs[i]? = some x ∧ R x y := by
  induction h generalizing i with
  | nil => cases hy
  | @cons x y' xs ys hxy _ ih =>
    cases i with
    | zero =>
      obtain rfl := Option.some.inj hy
      exact ⟨x, rfl, hxy⟩
    | succ i => exact ih hy

/-- Related entries, chosen one by one. -/
theorem exists_forall₂ {α β : Type} {R : α → β → Prop} {xs : List α} {P : Nat → β → Prop}
    (h : ∀ i x, xs[i]? = some x → ∃ y, P i y ∧ R x y) :
    ∃ ys, List.Forall₂ R xs ys ∧ ∀ i y, ys[i]? = some y → P i y := by
  induction xs generalizing P with
  | nil => exact ⟨[], .nil, fun i y hy => by cases hy⟩
  | cons x xs ih =>
    obtain ⟨y, hP, hR⟩ := h 0 x rfl
    obtain ⟨ys, hall, hys⟩ := ih fun i x' hx' => h (i + 1) x' hx'
    refine ⟨y :: ys, .cons hR hall, fun i y' hy' => ?_⟩
    cases i with
    | zero => exact Option.some.inj hy' ▸ hP
    | succ i => exact hys i y' hy'

/-- Putting something in front of one of several lists. -/
theorem perm_flatten_modify {α : Type} (x : α) {xss : List (List α)} {b : Nat}
    (hb : b < xss.length) : (xss.modify b (x :: ·)).flatten.Perm (x :: xss.flatten) := by
  induction xss generalizing b with
  | nil => cases hb
  | cons xs xss ih =>
    cases b with
    | zero => exact .refl _
    | succ b =>
      rw [List.modify_succ_cons, List.flatten_cons, List.flatten_cons]
      exact ((ih (Nat.lt_of_succ_lt_succ hb)).append_left xs).trans List.perm_middle

/-- A link of a dictionary, with its key and its value. -/
@[ext] structure Node where
  link : Value
  key : Value
  value : Value

/-- The link, the key and the value have been moved at most. -/
structure Node.Renames (σ : Renaming) (x x' : Node) : Prop where
  link : Value.Renames σ x.link x'.link
  key : Value.Renames σ x.key x'.key
  value : Value.Renames σ x.value x'.value

theorem nodes_eq_of_fixed {σ : Renaming} {ns ns' : List Node}
    (h : List.Forall₂ (Node.Renames σ) ns ns') (hσ : ∀ a b, σ a b → a = b) : ns = ns' := by
  have hnodes := h.imp fun x x' hx =>
    Node.ext (hx.link.eq_of_fixed hσ) (hx.key.eq_of_fixed hσ) (hx.value.eq_of_fixed hσ)
  rwa [List.forall₂_eq_eq_eq] at hnodes

/-- A dictionary, its table and the links of its chains. -/
@[ext] structure Dict where
  object : Address
  table : Address
  chains : List (List Node)

namespace Dict

/-- All links. -/
def nodes (D : Dict) : List Node := D.chains.flatten

/-- The link of a key. -/
def find (D : Dict) (key : Value) : Option Node := D.nodes.find? (·.key = key)

/-- The value of a key. -/
def lookup (D : Dict) (key : Value) : Option Value := (D.find key).map Node.value

/-- The object at `x` belongs to the dictionary. -/
def Part (D : Dict) (x : Nat) : Prop :=
  x = D.object.offset ∨ x = D.table.offset ∨ ∃ y ∈ D.nodes, y.link.IsAt x

theorem find_eq_some_iff {D : Dict} {k : Value} {x : Node}
    (hunique : (D.nodes.map Node.key).Nodup) : D.find k = some x ↔ x ∈ D.nodes ∧ x.key = k := by
  constructor
  · intro hfind
    exact ⟨List.mem_of_find?_eq_some hfind, by simpa using List.find?_some hfind⟩
  · rintro ⟨hx, rfl⟩
    cases hfind : D.find x.key with
    | none => exact absurd (List.find?_eq_none.1 hfind x hx) (by simp)
    | some y =>
      have hkey : y.key = x.key := by simpa using List.find?_some hfind
      rw [List.inj_on_of_nodup_map hunique (List.mem_of_find?_eq_some hfind) hx hkey]

/-- All objects of the dictionary have been moved at most. -/
structure Renames (σ : Renaming) (D D' : Dict) : Prop where
  object : σ D.object.offset D'.object.offset
  table : σ D.table.offset D'.table.offset
  chains : List.Forall₂ (List.Forall₂ (Node.Renames σ)) D.chains D'.chains

section Nodes

variable {σ τ : Renaming} {D D' D'' : Dict} {x x' : Node} {b : Nat} {ns : List Node}

theorem mem_nodes_iff : x ∈ D.nodes ↔ ∃ (b : Nat) (ns : List Node), D.chains[b]? = some ns ∧
    x ∈ ns := by
  rw [nodes, List.mem_flatten]
  constructor
  · rintro ⟨ns, hns, hx⟩
    obtain ⟨b, hb⟩ := List.mem_iff_getElem?.1 hns
    exact ⟨b, ns, hb, hx⟩
  · rintro ⟨b, ns, hns, hx⟩
    exact ⟨ns, List.mem_of_getElem? hns, hx⟩

theorem mem_nodes (hns : D.chains[b]? = some ns) (hx : x ∈ ns) : x ∈ D.nodes :=
  mem_nodes_iff.2 ⟨b, ns, hns, hx⟩

theorem Renames.nodes (h : D.Renames σ D') : List.Forall₂ (Node.Renames σ) D.nodes D'.nodes :=
  List.rel_flatten h.chains

theorem Renames.length (h : D.Renames σ D') : D'.chains.length = D.chains.length :=
  h.chains.length_eq.symm

/-- The objects of the dictionary are those from before. -/
theorem Renames.part (h : D.Renames σ D') {x' : Nat} (hx' : D'.Part x') :
    ∃ x, D.Part x ∧ σ x x' := by
  rcases hx' with rfl | rfl | ⟨y', hy', a', ha', rfl⟩
  · exact ⟨_, .inl rfl, h.object⟩
  · exact ⟨_, .inr (.inl rfl), h.table⟩
  · obtain ⟨y, hy, hren⟩ := exists_of_mem_right h.nodes hy'
    have hlink := hren.link
    rw [ha'] at hlink
    generalize hv : y.link = v at hlink
    cases hlink with
    | @ref a _ hab => exact ⟨a.offset, .inr (.inr ⟨y, hy, a, hv, rfl⟩), hab⟩

/-- A renaming that moves nothing renames a dictionary to itself. -/
theorem Renames.eq_of_fixed (h : D.Renames σ D') (hσ : ∀ a b, σ a b → a = b) : D = D' := by
  have hchains := h.chains.imp fun ns ns' hns => nodes_eq_of_fixed hns hσ
  rw [List.forall₂_eq_eq_eq] at hchains
  exact Dict.ext (Address.ext (hσ _ _ h.object)) (Address.ext (hσ _ _ h.table)) hchains

end Nodes

end Dict

namespace Machine

/-- The links of a chain. Chains end in nil. -/
inductive Linked (m : Machine) : Value → List Node → Prop
  | nil : Linked m m.nil []
  | cons {link key value next : Value} {rest : List Node} (hlink : link ≠ m.nil)
      (hkey : m.memory.getPtr link Link.key = .ok key)
      (hvalue : m.memory.getPtr link Link.value = .ok value)
      (hnext : m.memory.getPtr link Link.next = .ok next) (hrest : Linked m next rest) :
      Linked m link (⟨link, key, value⟩ :: rest)

/-- **The machine has the dictionary.** Chains end in nil, each link is in the chain that the hash
of its key chooses, and no key is in two links. -/
structure IsMap (m : Machine) (D : Dict) : Prop where
  held : m.memory.Holds (.ref D.object)
  table : m.memory.getPtr (.ref D.object) Dictionary.table = .ok (.ref D.table)
  size : m.memory.size (.ref D.table) = .ok D.chains.length
  pos : 0 < D.chains.length
  chain : ∀ b ns, D.chains[b]? = some ns →
    ∃ head, m.memory.getPtr (.ref D.table) b = .ok head ∧ m.Linked head ns
  bucket : ∀ b ns, D.chains[b]? = some ns → ∀ x ∈ ns,
    ∃ hash, m.memory.hash x.key = .ok hash ∧ hash.toNat % D.chains.length = b
  unique : (D.nodes.map Node.key).Nodup
  apart : D.table ≠ D.object
  links : ∀ x ∈ D.nodes, x.link ≠ .ref D.object ∧ x.link ≠ .ref D.table

section Looking

variable {m : Machine} {v k : Value} {ns : List Node} {x : Node} {D : Dict}

/-- What a link of a chain has. -/
theorem Linked.of_mem (hm : m.memory.WellFormed) (hv : m.memory.Holds v) (h : m.Linked v ns)
    (hx : x ∈ ns) :
    m.memory.Holds x.link ∧ x.link ≠ m.nil ∧ m.memory.getPtr x.link Link.key = .ok x.key ∧
      m.memory.getPtr x.link Link.value = .ok x.value := by
  induction h with
  | nil => cases hx
  | @cons link key value next rest hlink hkey hvalue hnext hrest ih =>
    rcases List.mem_cons.1 hx with rfl | hx
    · exact ⟨hv, hlink, hkey, hvalue⟩
    · exact ih (hm.holds_getPtr hv hnext).2 hx

/-- The test for the link of a key. -/
def isLinkOf (m : Machine) (key link : Value) : Except Fault Bool := do
  return (← m.memory.getPtr link Link.key) = key

theorem Linked.findInChain_steps (hm : m.memory.WellFormed) (hv : m.memory.Holds v)
    (h : m.Linked v ns) {steps : Nat} (hsteps : ns.length < steps) :
    m.findInChain (m.isLinkOf k) steps v = .ok ((ns.find? (·.key = k)).map Node.link) := by
  induction h generalizing steps with
  | nil =>
    obtain ⟨n, rfl⟩ : ∃ n, steps = n + 1 := ⟨steps - 1, by omega⟩
    rw [findInChain, if_pos rfl]
    rfl
  | @cons link key value next rest hlink hkey hvalue hnext hrest ih =>
    obtain ⟨n, rfl⟩ : ∃ n, steps = n + 1 := ⟨steps - 1, by rw [List.length_cons] at hsteps; omega⟩
    have htest : m.isLinkOf k link = .ok (decide (key = k)) := by
      unfold isLinkOf
      rw [hkey]
      rfl
    rw [findInChain, if_neg hlink, htest]
    by_cases hk : key = k
    · rw [List.find?_cons_of_pos (by simpa using hk), decide_eq_true hk]
      rfl
    · rw [List.find?_cons_of_neg (by simpa using hk), decide_eq_false hk]
      rw [List.length_cons] at hsteps
      show (m.memory.getPtr link Link.next >>= _) = _
      rw [hnext]
      exact ih (hm.holds_getPtr hv hnext).2 (by omega)

/-- **A walk along a chain** finds the link of a key. -/
theorem Linked.findInChain (hm : m.memory.WellFormed) (hv : m.memory.Holds v) (h : m.Linked v ns) :
    m.findInChain (m.isLinkOf k) m.chainBound v = .ok ((ns.find? (·.key = k)).map Node.link) := by
  rw [findInChain_eq hm _ hv (Nat.le_refl _) (Nat.le_max_left m.chainBound (ns.length + 1))]
  exact h.findInChain_steps hm hv (by omega)

theorem exists_hash (hm : m.memory.WellFormed) (hk : m.memory.Holds k) :
    ∃ hash, m.memory.hash k = .ok hash := by
  cases hk with
  | small n => exact ⟨_, rfl⟩
  | ref ha => exact ⟨_, hash_ref_of_mem hm ha⟩

theorem IsMap.holds_table (hm : m.WellFormed) (h : m.IsMap D) : m.memory.Holds (.ref D.table) :=
  (hm.memory.holds_getPtr h.held h.table).2

/-- A link of the dictionary, and what it has. -/
theorem IsMap.of_mem (hm : m.WellFormed) (h : m.IsMap D) (hx : x ∈ D.nodes) :
    m.memory.Holds x.link ∧ x.link ≠ m.nil ∧ m.memory.getPtr x.link Link.key = .ok x.key ∧
      m.memory.getPtr x.link Link.value = .ok x.value := by
  obtain ⟨b, ns, hns, hx⟩ := Dict.mem_nodes_iff.1 hx
  obtain ⟨head, hhead, hchain⟩ := h.chain b ns hns
  exact hchain.of_mem hm.memory (hm.memory.holds_getPtr (h.holds_table hm) hhead).2 hx

theorem IsMap.dictionaryBucket (h : m.IsMap D) {hash : UInt32}
    (hhash : m.memory.hash k = .ok hash) :
    m.dictionaryBucket (.ref D.object) k = .ok (.ref D.table, hash.toNat % D.chains.length) := by
  unfold Machine.dictionaryBucket
  rw [h.table]
  show (m.memory.size (.ref D.table) >>= _) = _
  rw [h.size]
  show (if D.chains.length = 0 then _ else _) = _
  rw [if_neg h.pos.ne', hhash]
  rfl

/-- The key of a link decides which one it is. -/
theorem IsMap.find_of_mem (h : m.IsMap D) (hx : x ∈ D.nodes) : D.find x.key = some x :=
  (Dict.find_eq_some_iff h.unique).2 ⟨hx, rfl⟩

/-- The link of a key is in the chain that its hash chooses. -/
theorem IsMap.find_eq (h : m.IsMap D) {hash : UInt32} (hhash : m.memory.hash k = .ok hash)
    (hns : D.chains[hash.toNat % D.chains.length]? = some ns) :
    ns.find? (·.key = k) = D.find k := by
  cases hfind : ns.find? (·.key = k) with
  | some x =>
    obtain rfl : x.key = k := by simpa using List.find?_some hfind
    exact (h.find_of_mem (Dict.mem_nodes hns (List.mem_of_find?_eq_some hfind))).symm
  | none =>
    refine (List.find?_eq_none.2 fun y hy hyk => ?_).symm
    obtain rfl : y.key = k := by simpa using hyk
    obtain ⟨b, ns', hns', hy⟩ := Dict.mem_nodes_iff.1 hy
    obtain ⟨hash', hhash', rfl⟩ := h.bucket b ns' hns' y hy
    obtain rfl := Except.ok.inj (hhash.symm.trans hhash')
    obtain rfl := Option.some.inj (hns.symm.trans hns')
    exact List.find?_eq_none.1 hfind y hy hyk

/-- **The link of a key.** -/
theorem IsMap.dictionaryLink (hm : m.WellFormed) (h : m.IsMap D) (hk : m.memory.Holds k) :
    m.dictionaryLink (.ref D.object) k = .ok ((D.find k).map Node.link) := by
  obtain ⟨hash, hhash⟩ := exists_hash hm.memory hk
  obtain ⟨ns, hns⟩ : ∃ ns, D.chains[hash.toNat % D.chains.length]? = some ns :=
    ⟨_, List.getElem?_eq_getElem (Nat.mod_lt _ h.pos)⟩
  obtain ⟨head, hhead, hchain⟩ := h.chain _ ns hns
  unfold Machine.dictionaryLink
  rw [h.dictionaryBucket hhash]
  show (m.memory.getPtr (.ref D.table) _ >>= _) = _
  rw [hhead, ← h.find_eq hhash hns]
  exact hchain.findInChain hm.memory (hm.memory.holds_getPtr (h.holds_table hm) hhead).2

/-- **The value of a key.** -/
theorem IsMap.dictionaryLookup (hm : m.WellFormed) (h : m.IsMap D) (hk : m.memory.Holds k) :
    m.dictionaryLookup (.ref D.object) k = .ok (D.lookup k) := by
  unfold Machine.dictionaryLookup Dict.lookup
  rw [h.dictionaryLink hm hk]
  cases hfind : D.find k with
  | none => rfl
  | some x =>
    obtain ⟨-, -, -, hvalue⟩ := h.of_mem hm (List.mem_of_find?_eq_some hfind)
    show (m.memory.getPtr x.link Link.value >>= _) = _
    rw [hvalue]
    rfl

end Looking

/-! ## Edits elsewhere -/

section Editing

variable {m m₁ : Machine} {T : Nat → Nat → Prop} {K : List Root} {σ : Renaming} {v w : Value}
  {ns : List Node} {D : Dict}

/-- A chain of which nothing is touched. -/
theorem Linked.edits (he : m.Edits T K σ m₁) (h : m.Linked v ns) (hvw : Value.Renames σ v w)
    (hT : ∀ x ∈ ns, ∀ a : Address, x.link = .ref a → ∀ i, ¬ T a.offset i) :
    ∃ ns', m₁.Linked w ns' ∧ List.Forall₂ (Node.Renames σ) ns ns' := by
  induction h generalizing w with
  | nil =>
    obtain rfl := (he.eq_nil_iff hvw).1 rfl
    exact ⟨[], .nil, .nil⟩
  | @cons link key value next rest hlink hkey hvalue hnext hrest ih =>
    have huntouched := hT _ List.mem_cons_self
    obtain ⟨key', hkey', hren⟩ := he.getPtr hvw hkey fun a ha => huntouched a ha _
    obtain ⟨value', hvalue', hren'⟩ := he.getPtr hvw hvalue fun a ha => huntouched a ha _
    obtain ⟨next', hnext', hren''⟩ := he.getPtr hvw hnext fun a ha => huntouched a ha _
    obtain ⟨rest', hrest', hall⟩ := ih hren'' fun x hx => hT x (List.mem_cons_of_mem _ hx)
    exact ⟨_, .cons (mt (he.eq_nil_iff hvw).2 hlink) hkey' hvalue' hnext' hrest',
      .cons ⟨hvw, hren, hren'⟩ hall⟩

/-- Nothing is moved. -/
theorem Linked.unmoved (he : m.Edits T K m.memory.unmoved m₁) (h : m.Linked v ns)
    (hv : m.memory.Holds v) (hT : ∀ x ∈ ns, ∀ a : Address, x.link = .ref a → ∀ i, ¬ T a.offset i) :
    m₁.Linked v ns := by
  obtain ⟨ns', h', hall⟩ := h.edits he (.unmoved hv) hT
  exact nodes_eq_of_fixed hall (fun _ _ hab => hab.2) ▸ h'

/-- Keys that are moved are as different as before. -/
theorem nodup_keys (he : m.Edits T K σ m₁) {ns ns' : List Node}
    (h : List.Forall₂ (Node.Renames σ) ns ns') (hunique : (ns.map Node.key).Nodup) :
    (ns'.map Node.key).Nodup := by
  induction h with
  | nil => exact .nil
  | @cons x x' ns ns' hx hns ih =>
    rw [List.map_cons, List.nodup_cons] at hunique ⊢
    refine ⟨fun hmem => hunique.1 ?_, ih hunique.2⟩
    obtain ⟨y', hy', hkey⟩ := List.mem_map.1 hmem
    obtain ⟨y, hy, hren⟩ := exists_of_mem_right hns hy'
    exact List.mem_map.2 ⟨y, hy, (he.eq_iff hren.key hx.key).2 hkey⟩

/-- Links are found as before. -/
theorem find_renames (he : m.Edits T K σ m₁) {ns ns' : List Node}
    (h : List.Forall₂ (Node.Renames σ) ns ns') (hvw : Value.Renames σ v w) :
    Option.Rel (Node.Renames σ) (ns.find? (·.key = v)) (ns'.find? (·.key = w)) := by
  induction h with
  | nil => exact .none
  | @cons x x' ns ns' hx _ ih =>
    have hsame := he.eq_iff hx.key hvw
    by_cases hkey : x.key = v
    · rw [List.find?_cons_of_pos (by simpa using hkey),
        List.find?_cons_of_pos (by simpa using hsame.1 hkey)]
      exact .some hx
    · rw [List.find?_cons_of_neg (by simpa using hkey),
        List.find?_cons_of_neg (by simpa using mt hsame.2 hkey)]
      exact ih

theorem lookup_renames (he : m.Edits T K σ m₁) {D' : Dict} (h : D.Renames σ D')
    (hvw : Value.Renames σ v w) : Option.Rel (Value.Renames σ) (D.lookup v) (D'.lookup w) := by
  have hfound : Option.Rel (Node.Renames σ) (D.find v) (D'.find w) := find_renames he h.nodes hvw
  unfold Dict.lookup
  generalize D.find v = found, D'.find w = found' at hfound ⊢
  cases hfound with
  | none => exact .none
  | some hx => exact .some hx.value

/-- **A dictionary is left alone** by edits of other objects. -/
theorem IsMap.edits (he : m.Edits T K σ m₁) (h : m.IsMap D) {w : Value}
    (hobject : Value.Renames σ (.ref D.object) w) (hT : ∀ x i, D.Part x → ¬ T x i) :
    ∃ D', w = .ref D'.object ∧ D.Renames σ D' ∧ m₁.IsMap D' := by
  obtain ⟨d', rfl, hd⟩ := hobject.of_ref
  obtain ⟨u, hu, htable⟩ := he.getPtr (.ref hd) h.table fun a ha =>
    Value.ref.inj ha ▸ hT _ _ (.inl rfl)
  obtain ⟨t', rfl, ht⟩ := htable.of_ref
  have hchain : ∀ b ns, D.chains[b]? = some ns → ∃ ns', (∃ head,
      m₁.memory.getPtr (.ref t') b = .ok head ∧ m₁.Linked head ns') ∧
        List.Forall₂ (Node.Renames σ) ns ns' := by
    intro b ns hns
    obtain ⟨head, hhead, hlinked⟩ := h.chain b ns hns
    obtain ⟨head', hhead', hren⟩ := he.getPtr (.ref ht) hhead fun a ha =>
      Value.ref.inj ha ▸ hT _ _ (.inr (.inl rfl))
    obtain ⟨ns', hlinked', hall⟩ := hlinked.edits he hren fun x hx a ha i =>
      hT _ _ (.inr (.inr ⟨x, Dict.mem_nodes hns hx, a, ha, rfl⟩))
    exact ⟨ns', ⟨head', hhead', hlinked'⟩, hall⟩
  obtain ⟨chains', hall, hchain'⟩ := exists_forall₂ hchain
  have hren : D.Renames σ ⟨d', t', chains'⟩ := ⟨hd, ht, hall⟩
  refine ⟨⟨d', t', chains'⟩, rfl, hren, ?_⟩
  constructor
  case held => exact he.holds (.ref hd)
  case table => exact hu
  case size => exact (he.length (.ref ht)).trans (hren.length ▸ h.size)
  case pos => exact hren.length ▸ h.pos
  case chain => exact hchain'
  case bucket =>
    intro b ns' hns' x' hx'
    obtain ⟨ns, hns, hnodes⟩ := exists_getElem?_left hall hns'
    obtain ⟨x, hx, hxx'⟩ := exists_of_mem_right hnodes hx'
    obtain ⟨hash, hhash, hb⟩ := h.bucket b ns hns x hx
    exact ⟨hash, (he.hash hxx'.key).trans hhash, hren.length ▸ hb⟩
  case unique => exact nodup_keys he hren.nodes h.unique
  case apart =>
    intro heq
    have heq : t' = d' := heq
    exact h.apart (Address.ext (he.persists.injective _ _ _ ht (heq ▸ hd)))
  case links =>
    intro x' hx'
    obtain ⟨x, hx, hxx'⟩ := exists_of_mem_right hren.nodes hx'
    obtain ⟨hxd, hxt⟩ := h.links x hx
    exact ⟨mt (he.eq_iff hxx'.link (.ref hd)).2 hxd, mt (he.eq_iff hxx'.link (.ref ht)).2 hxt⟩

/-- The values held do not matter. -/
theorem Linked.withScratch {scratch : Array Value} (h : m.Linked v ns) :
    (m.withScratch scratch).Linked v ns := by
  induction h with
  | nil => exact .nil
  | cons hlink hkey hvalue hnext _ ih => exact .cons hlink hkey hvalue hnext ih

theorem IsMap.withScratch {scratch : Array Value} (h : m.IsMap D) :
    (m.withScratch scratch).IsMap D :=
  { h with
    chain := fun b ns hns => by
      obtain ⟨head, hhead, hlinked⟩ := h.chain b ns hns
      exact ⟨head, hhead, hlinked.withScratch⟩ }

/-- Nothing is moved. -/
theorem IsMap.unmoved (he : m.Edits T K m.memory.unmoved m₁) (h : m.IsMap D)
    (hT : ∀ x i, D.Part x → ¬ T x i) : m₁.IsMap D := by
  obtain ⟨D', -, hren, h'⟩ := h.edits he (.unmoved h.held) hT
  exact hren.eq_of_fixed (fun _ _ hab => hab.2) ▸ h'

theorem IsMap.renames_unmoved (hm : m.WellFormed) (h : m.IsMap D) :
    D.Renames m.memory.unmoved D := by
  have hsame : m.Edits untouched [] m.memory.unmoved m := .refl hm
  obtain ⟨D', -, hren, -⟩ := h.edits hsame (.unmoved h.held) fun _ _ _ => id
  obtain rfl := hren.eq_of_fixed fun _ _ hab => hab.2
  exact hren

end Editing

/-! ## Storing to a dictionary -/

end Machine

namespace Dict

/-- The dictionary with another value for a key that it has. -/
def assign (D : Dict) (key value : Value) : Dict :=
  { D with chains := D.chains.map (List.map fun x => if x.key = key then { x with value } else x) }

/-- The dictionary with a link in front of a chain. -/
def push (D : Dict) (b : Nat) (x : Node) : Dict := { D with chains := D.chains.modify b (x :: ·) }

section Updates

variable {D : Dict} {k v : Value} {x y : Node} {b : Nat} {ns : List Node}

theorem nodes_assign : (D.assign k v).nodes =
    D.nodes.map fun x => if x.key = k then { x with value := v } else x :=
  List.map_flatten.symm

theorem keys_assign : (D.assign k v).nodes.map Node.key = D.nodes.map Node.key := by
  rw [nodes_assign, List.map_map]
  refine List.map_congr_left fun x _ => ?_
  rw [Function.comp_apply]
  split <;> rfl

theorem exists_of_mem_assign (hy : y ∈ (D.assign k v).nodes) :
    ∃ x ∈ D.nodes, y.link = x.link ∧ y.key = x.key := by
  rw [nodes_assign] at hy
  obtain ⟨x, hx, rfl⟩ := List.mem_map.1 hy
  refine ⟨x, hx, ?_⟩
  split <;> exact ⟨rfl, rfl⟩

theorem getElem?_push (hns : D.chains[b]? = some ns) (b' : Nat) :
    (D.push b x).chains[b']? = if b' = b then some (x :: ns) else D.chains[b']? := by
  rw [push, List.getElem?_modify]
  by_cases hbb : b' = b
  · subst hbb
    rw [if_pos rfl, hns]
    simp
  · rw [if_neg hbb]
    simp [Ne.symm hbb]

@[simp] theorem length_push : (D.push b x).chains.length = D.chains.length :=
  List.length_modify ..

theorem perm_push (hns : D.chains[b]? = some ns) : (D.push b x).nodes.Perm (x :: D.nodes) :=
  perm_flatten_modify x (List.getElem?_eq_some_iff.1 hns).1

theorem mem_push (hns : D.chains[b]? = some ns) : y ∈ (D.push b x).nodes ↔ y = x ∨ y ∈ D.nodes :=
  (perm_push hns).mem_iff.trans List.mem_cons

/-- Looking for a key that has got another value. -/
theorem lookup_assign (hfind : D.find k = some x) (key : Value) :
    (D.assign k v).lookup key = if key = k then some v else D.lookup key := by
  have hmap : (D.assign k v).find key =
      (D.find key).map fun y => if y.key = k then { y with value := v } else y := by
    rw [find, nodes_assign, List.find?_map, find]
    congr 2
    funext y
    rw [Function.comp_apply]
    split <;> rfl
  rw [lookup, hmap, lookup]
  by_cases hkey : key = k
  · subst hkey
    have hx : x.key = key := by simpa using List.find?_some hfind
    rw [if_pos rfl, hfind, Option.map_some, if_pos hx, Option.map_some]
  · rw [if_neg hkey, Option.map_map]
    cases hy : D.find key with
    | none => rfl
    | some y =>
      have hyk : y.key = key := by simpa using List.find?_some hy
      rw [Option.map_some, Function.comp_apply, if_neg (hyk.symm ▸ hkey), Option.map_some]

/-- Looking for a key after one has got a link. -/
theorem lookup_push (hns : D.chains[b]? = some ns)
    (hunique : ((D.push b x).nodes.map Node.key).Nodup)
    (key : Value) : (D.push b x).lookup key =
      if key = x.key then some x.value else D.lookup key := by
  obtain ⟨hnew, hold⟩ := List.nodup_cons.1 (((perm_push hns).map Node.key).nodup_iff.1 hunique)
  have hfind : (D.push b x).find key = if key = x.key then some x else D.find key := by
    refine Option.ext fun y => ?_
    rw [find_eq_some_iff hunique, mem_push hns]
    by_cases hkey : key = x.key
    · rw [if_pos hkey, Option.some_inj]
      constructor
      · rintro ⟨rfl | hy, hyk⟩
        · rfl
        · exact absurd (List.mem_map.2 ⟨y, hy, hyk.trans hkey⟩) hnew
      · rintro rfl
        exact ⟨.inl rfl, hkey.symm⟩
    · rw [if_neg hkey, find_eq_some_iff hold]
      exact and_congr_left fun hy => or_iff_right fun hc => hkey (hc ▸ hy.symm)
  rw [lookup, hfind]
  split <;> rfl

end Updates

end Dict

namespace Machine

section Storing

variable {m m₁ : Machine} {D : Dict} {k u v : Value} {x : Node} {ns : List Node} {b : Nat}
  {a : Address}

theorem nil_setPtr {o : Value} {i : Nat} (h : Machine.setPtr o i v m = .ok () m₁) :
    m₁.nil = m.nil :=
  congrArg (·.get .nil) (registers_setPtr h)

/-- A chain in which one link gets another value. -/
theorem Linked.assign (hm : m.WellFormed) (hu : m.memory.Holds u) (h : m.Linked u ns)
    (hx : m.memory.Holds x.link) (hv : m.memory.Holds v)
    (hset : Machine.setPtr x.link Link.value v m = .ok () m₁)
    (hsame : ∀ y ∈ ns, y.link = x.link ↔ y.key = k) :
    m₁.Linked u (ns.map fun y => if y.key = k then { y with value := v } else y) := by
  have hget := fun {w} => getPtr_after_setPtr hm hx hv hset (u := w)
  induction h with
  | nil => exact nil_setPtr hset ▸ .nil
  | @cons link key value next rest hlink hkey hvalue hnext hrest ih =>
    obtain ⟨hfirst, hothers⟩ := List.forall_mem_cons.1 hsame
    have hrest' := ih (hm.memory.holds_getPtr hu hnext).2 hothers
    have hkey' : m₁.memory.getPtr link Link.key = .ok key := by
      rw [hget hu, if_neg fun hc => absurd hc.2 (by decide), hkey]
    have hnext' : m₁.memory.getPtr link Link.next = .ok next := by
      rw [hget hu, if_neg fun hc => absurd hc.2 (by decide), hnext]
    rw [List.map_cons]
    by_cases hk : key = k
    · have hvalue' : m₁.memory.getPtr link Link.value = .ok v := by
        rw [hget hu, if_pos ⟨hfirst.2 hk, rfl⟩]
      rw [if_pos hk]
      exact .cons (nil_setPtr hset ▸ hlink) hkey' hvalue' hnext' hrest'
    · have hvalue' : m₁.memory.getPtr link Link.value = .ok value := by
        rw [hget hu, if_neg fun hc => hk (hfirst.1 hc.1), hvalue]
      rw [if_neg hk]
      exact .cons (nil_setPtr hset ▸ hlink) hkey' hvalue' hnext' hrest'

/-- **A key gets another value.** -/
theorem IsMap.assign (hm : m.WellFormed) (h : m.IsMap D) (hfind : D.find k = some x)
    (hv : m.memory.Holds v) (hset : Machine.setPtr x.link Link.value v m = .ok () m₁) :
    m.Edits (fun y _ => D.Part y) [] m.memory.unmoved m₁ ∧ m₁.IsMap (D.assign k v) := by
  have hmem := List.mem_of_find?_eq_some hfind
  obtain rfl : x.key = k := by simpa using List.find?_some hfind
  obtain ⟨hx, -, hkey, -⟩ := h.of_mem hm hmem
  have hget := fun {w} => getPtr_after_setPtr hm hx hv hset (u := w)
  have he : m.Edits (fun y _ => D.Part y) [] m.memory.unmoved m₁ :=
    (Edits.refl hm).setPtr hx hv hset fun c y hc hy => .inr (.inr ⟨x, hmem, c, hc, hy.2.symm⟩)
  have hsame : ∀ y ∈ D.nodes, y.link = x.link ↔ y.key = x.key := by
    intro y hy
    constructor
    · intro hlink
      obtain ⟨-, -, hkey', -⟩ := h.of_mem hm hy
      exact Except.ok.inj ((hlink ▸ hkey').symm.trans hkey)
    · intro hk
      rw [List.inj_on_of_nodup_map h.unique hy hmem hk]
  obtain ⟨hxd, hxt⟩ := h.links x hmem
  have hlength : (D.assign x.key v).chains.length = D.chains.length := List.length_map _
  have hchains : ∀ (b : Nat) (ns' : List Node), (D.assign x.key v).chains[b]? = some ns' →
      ∃ ns : List Node, D.chains[b]? = some ns ∧
        ns' = ns.map fun y => if y.key = x.key then { y with value := v } else y := by
    intro b ns' hns'
    rw [Dict.assign, List.getElem?_map] at hns'
    obtain ⟨ns, hns, rfl⟩ := Option.map_eq_some_iff.1 hns'
    exact ⟨ns, hns, rfl⟩
  refine ⟨he, ?_⟩
  constructor
  case held => exact he.holds (.unmoved h.held)
  case table =>
    show m₁.memory.getPtr (.ref D.object) _ = _
    rw [hget h.held, if_neg fun hc => hxd hc.1.symm]
    exact h.table
  case size => exact (he.length (.unmoved (h.holds_table hm))).trans (hlength ▸ h.size)
  case pos => exact hlength ▸ h.pos
  case chain =>
    intro b ns' hns'
    obtain ⟨ns, hns, rfl⟩ := hchains b ns' hns'
    obtain ⟨head, hhead, hlinked⟩ := h.chain b ns hns
    have htable := h.holds_table hm
    refine ⟨head, ?_, hlinked.assign hm (hm.memory.holds_getPtr htable hhead).2 hx hv hset
        fun y hy =>
      hsame y (Dict.mem_nodes hns hy)⟩
    show m₁.memory.getPtr (.ref D.table) b = _
    rw [hget htable, if_neg fun hc => hxt hc.1.symm, hhead]
  case bucket =>
    intro b ns' hns' y' hy'
    obtain ⟨ns, hns, rfl⟩ := hchains b ns' hns'
    obtain ⟨y, hy, rfl⟩ := List.mem_map.1 hy'
    obtain ⟨hash, hhash, hb⟩ := h.bucket b ns hns y hy
    refine ⟨hash, ?_, hlength ▸ hb⟩
    have hheld := (hm.memory.holds_getPtr (h.of_mem hm (Dict.mem_nodes hns hy)).1
      (h.of_mem hm (Dict.mem_nodes hns hy)).2.2.1).2
    have hhash' := (he.hash (.unmoved hheld)).trans hhash
    split <;> exact hhash'
  case unique => exact Dict.keys_assign.symm ▸ h.unique
  case apart => exact h.apart
  case links =>
    intro y' hy'
    obtain ⟨y, hy, hlink, -⟩ := Dict.exists_of_mem_assign hy'
    exact hlink ▸ h.links y hy

/-- **A key gets a link** in front of the chain that its hash chooses. -/
theorem IsMap.push (hm : m.WellFormed) (h : m.IsMap D) {hash : UInt32}
    (ha : m.memory.Holds (.ref a)) (hnil : .ref a ≠ m.nil) (hpart : ¬ D.Part a.offset)
    (hkey : m.memory.getPtr (.ref a) Link.key = .ok k)
    (hvalue : m.memory.getPtr (.ref a) Link.value = .ok v)
    (hhash : m.memory.hash k = .ok hash) (hb : hash.toNat % D.chains.length = b)
    (hnone : D.find k = none)
    (hnext : m.memory.getPtr (.ref a) Link.next = m.memory.getPtr (.ref D.table) b)
    (hset : Machine.setPtr (.ref D.table) b (.ref a) m = .ok () m₁) :
    m.Edits (fun y _ => D.Part y) [] m.memory.unmoved m₁ ∧ m₁.IsMap (D.push b ⟨.ref a, k, v⟩) := by
  obtain ⟨ns, hns⟩ : ∃ ns, D.chains[b]? = some ns :=
    ⟨_, List.getElem?_eq_getElem (hb ▸ Nat.mod_lt _ h.pos)⟩
  have ht := h.holds_table hm
  have hget := fun {w} => getPtr_after_setPtr hm ht ha hset (u := w)
  have he : m.Edits (fun y j => y = D.table.offset ∧ j = b) [] m.memory.unmoved m₁ :=
    (Edits.refl hm).setPtr ht ha hset fun c y hc hy => ⟨Value.ref.inj hc ▸ hy.2, rfl⟩
  have hnodes : ∀ y ∈ D.nodes, ∀ c : Address, y.link = .ref c → ∀ i,
      ¬ (c.offset = D.table.offset ∧ i = b) := fun y hy c hc i heq =>
    (h.links y hy).2 (hc.trans (congrArg Value.ref (Address.ext heq.1)))
  have hchain : ∀ b' ns', D.chains[b']? = some ns' → ∃ head,
      m.memory.getPtr (.ref D.table) b' = .ok head ∧ m₁.Linked head ns' := by
    intro b' ns' hns'
    obtain ⟨head, hhead, hlinked⟩ := h.chain b' ns' hns'
    exact ⟨head, hhead, hlinked.unmoved he (hm.memory.holds_getPtr ht hhead).2 fun y hy =>
      hnodes y (Dict.mem_nodes hns' hy)⟩
  have hhash₁ : ∀ {w : Value}, m.memory.Holds w → m₁.memory.hash w = m.memory.hash w :=
    fun hw => he.hash (.unmoved hw)
  have hat : a ≠ D.table := fun hc => hpart (.inr (.inl (congrArg Address.offset hc)))
  have hne : ∀ i, ¬ (Value.ref a = .ref D.table ∧ i = b) := fun _ hc => hat (Value.ref.inj hc.1)
  refine ⟨he.mono (fun y i hy => .inr (.inl hy.1)) (List.Subset.refl _), ?_⟩
  constructor
  case held => exact he.holds (.unmoved h.held)
  case table =>
    show m₁.memory.getPtr (.ref D.object) _ = _
    rw [hget h.held, if_neg fun hc => h.apart (Value.ref.inj hc.1).symm]
    exact h.table
  case size => exact (he.length (.unmoved ht)).trans (Dict.length_push.symm ▸ h.size)
  case pos => exact Dict.length_push.symm ▸ h.pos
  case chain =>
    intro b' ns' hns'
    show ∃ head, m₁.memory.getPtr (.ref D.table) b' = .ok head ∧ _
    rw [Dict.getElem?_push hns] at hns'
    rw [hget ht]
    by_cases hbb : b' = b
    · subst hbb
      rw [if_pos rfl] at hns'
      obtain rfl := Option.some.inj hns'
      obtain ⟨head, hhead, hlinked⟩ := hchain b' ns hns
      exact ⟨.ref a, if_pos ⟨rfl, rfl⟩, .cons (nil_setPtr hset ▸ hnil)
        (by rw [hget ha, if_neg (hne _), hkey]) (by rw [hget ha, if_neg (hne _), hvalue])
        (by rw [hget ha, if_neg (hne _), hnext, hhead]) hlinked⟩
    · rw [if_neg hbb] at hns'
      rw [if_neg fun hc => hbb hc.2]
      exact hchain b' ns' hns'
  case bucket =>
    intro b' ns' hns' y hy
    rw [Dict.getElem?_push hns] at hns'
    rw [Dict.length_push]
    have hold : ∀ b' ns', D.chains[b']? = some ns' → ∀ y ∈ ns',
        ∃ hash, m₁.memory.hash y.key = .ok hash ∧ hash.toNat % D.chains.length = b' := by
      intro b' ns' hns' y hy
      obtain ⟨hy', -, hyk, -⟩ := h.of_mem hm (Dict.mem_nodes hns' hy)
      rw [hhash₁ (hm.memory.holds_getPtr hy' hyk).2]
      exact h.bucket b' ns' hns' y hy
    by_cases hbb : b' = b
    · subst hbb
      rw [if_pos rfl] at hns'
      obtain rfl := Option.some.inj hns'
      rcases List.mem_cons.1 hy with rfl | hy
      · exact ⟨hash, (hhash₁ (hm.memory.holds_getPtr ha hkey).2).trans hhash, hb⟩
      · exact hold b' ns hns y hy
    · rw [if_neg hbb] at hns'
      exact hold b' ns' hns' y hy
  case unique =>
    refine ((Dict.perm_push hns).map Node.key).nodup_iff.2
      (List.nodup_cons.2 ⟨fun hmem => ?_, h.unique⟩)
    obtain ⟨y, hy, hyk⟩ := List.mem_map.1 hmem
    exact List.find?_eq_none.1 hnone y hy (by simpa using hyk)
  case apart => exact h.apart
  case links =>
    intro y hy
    rcases (Dict.mem_push hns).1 hy with rfl | hy
    · exact ⟨fun hc => hpart (.inl (congrArg Address.offset (Value.ref.inj hc))),
        fun hc => hat (Value.ref.inj hc)⟩
    · exact h.links y hy

/-- An object that is not part of the dictionary is stored to. -/
theorem IsMap.setPtr (hm : m.WellFormed) (h : m.IsMap D) {i : Nat} (ha : m.memory.Holds (.ref a))
    (hpart : ¬ D.Part a.offset) (hv : m.memory.Holds v)
    (hset : Machine.setPtr (.ref a) i v m = .ok () m₁) : m₁.IsMap D := by
  have he : m.Edits (fun y _ => y = a.offset) [] m.memory.unmoved m₁ :=
    (Edits.refl hm).setPtr ha hv hset fun c y hc hy => Value.ref.inj hc ▸ hy.2
  exact h.unmoved he fun x _ hx hc => hpart (hc ▸ hx)

/-- Nothing from before is renamed to what is new, so it is no part of a dictionary from before. -/
theorem not_part_of_fresh {σ : Renaming} {D' : Dict} (h : D.Renames σ D') {x' : Nat}
    (hfresh : ∀ x, ¬ σ x x') : ¬ D'.Part x' := fun hpart => by
  obtain ⟨x, -, hx⟩ := h.part hpart
  exact hfresh x hx

end Storing

/-! ## Operations -/

section Operations

variable {m m₁ : Machine} {D : Dict} {cls d k v : Value} {n : Nat}

/-- **Making a dictionary.** -/
theorem newDictionary_eq_ok (hm : m.WellFormed) (hcls : m.memory.Holds cls) (hn : 0 < n)
    (h : newDictionary cls n m = .ok d m₁) :
    ∃ σ D, d = .ref D.object ∧ m.Edits untouched [] σ m₁ ∧ m₁.IsMap D ∧ D.lookup = (fun _ => none) ∧
      ∀ x', D.Part x' → ∀ x, ¬ σ x x' := by
  obtain ⟨_, m₂, hcreate, h⟩ := bind_eq_ok h
  obtain ⟨σ, a, rfl, hobject⟩ := createFields_eq_ok hm hcls hcreate
  obtain ⟨⟨t, d'⟩, m₃, hholding, h⟩ := bind_eq_ok h
  obtain ⟨m₄, harray, rfl, hback⟩ := holding_eq_ok hobject.after hholding
  rw [register_bind] at harray
  obtain ⟨τ, t, rfl, htable⟩ := createFields_eq_ok (hobject.after.hold (.ref hobject.mem))
    (hobject.after.registers.get .arrayClass) harray
  obtain ⟨he₃, hren⟩ := hback _ _ _ htable.toEdits
  obtain ⟨d', rfl, had⟩ := hren.of_ref
  have htable := htable.withScratch he₃
  generalize m₄.withScratch _ = m₃ at *
  obtain ⟨_, m₅, hset, h⟩ := bind_eq_ok h
  cases h
  have hm₃ := he₃.after
  have hd' : m₃.memory.Holds (.ref d') := he₃.holds (.ref had)
  have ht : m₃.memory.Holds (.ref t) := .ref htable.mem
  have hget := fun {w} => getPtr_after_setPtr hm₃ hd' ht hset (u := w)
  have hfresh : ∀ x, ¬ (σ.followedBy τ) x d'.offset := by
    rintro x ⟨y, hxy, hyd⟩
    exact hobject.fresh x (he₃.persists.injective _ _ _ hyd had ▸ hxy)
  have he : m.Edits untouched [] (σ.followedBy τ) m₁ :=
    (hobject.toEdits.trans he₃ (fun _ _ => id) fun _ _ _ _ => id).setPtr_new hfresh
      (he₃.persists.range _ _ had) ht hset
  have hstep : m₃.Edits (fun _ _ => True) [] m₃.memory.unmoved m₁ :=
    (Edits.refl hm₃).setPtr hd' ht hset fun _ _ _ _ => trivial
  have htd : t ≠ d' := fun hc => htable.fresh _ (hc ▸ had)
  have hsize : (List.replicate n ([] : List Node)).length = n := List.length_replicate
  have hchains : ∀ (b : Nat) (ns : List Node), (List.replicate n [])[b]? = some ns →
      b < n ∧ ns = [] := by
    intro b ns hns
    obtain ⟨hb, hns⟩ := List.getElem?_eq_some_iff.1 hns
    exact ⟨hsize ▸ hb, hns.symm.trans (List.getElem_replicate _)⟩
  have hnodes : (⟨d', t, List.replicate n []⟩ : Dict).nodes = [] := List.flatten_replicate_nil
  refine ⟨_, ⟨d', t, List.replicate n []⟩, rfl, he, ?_, ?_, ?_⟩
  · constructor
    case held => exact hstep.holds (.unmoved hd')
    case table => rw [hget hd', if_pos ⟨rfl, rfl⟩]
    case size => exact (hstep.length (.unmoved ht)).trans (hsize.symm ▸ htable.length)
    case pos => exact hsize.symm ▸ hn
    case chain =>
      intro b ns hns
      obtain ⟨hb, rfl⟩ := hchains b ns hns
      refine ⟨m₁.nil, ?_, .nil⟩
      show m₁.memory.getPtr (.ref t) b = _
      rw [hget ht, if_neg fun hc => htd (Value.ref.inj hc.1), htable.fields b hb, nil_setPtr hset]
    case bucket =>
      intro b ns hns x hx
      obtain ⟨-, rfl⟩ := hchains b ns hns
      cases hx
    case unique => rw [hnodes]; exact .nil
    case apart => exact htd
    case links => rw [hnodes]; exact fun x hx => by cases hx
  · funext key
    rw [Dict.lookup, Dict.find, hnodes]
    rfl
  · rintro x' (rfl | rfl | ⟨y, hy, -⟩) x
    · exact hfresh x
    · rintro ⟨y, -, hyt⟩
      exact htable.fresh y hyt
    · rw [hnodes] at hy
      cases hy

/-- The new link is filled in and put in front of its chain. -/
theorem IsMap.attach {m₂ m₃ m₄ m₅ : Machine} {a : Address} {b : Nat} {head : Value} {hash : UInt32}
    (hm : m.WellFormed) (h : m.IsMap D) (ha : m.memory.Holds (.ref a)) (hnil : .ref a ≠ m.nil)
    (hpart : ¬ D.Part a.offset) (hk : m.memory.Holds k) (hv : m.memory.Holds v)
    (hhash : m.memory.hash k = .ok hash) (hb : hash.toNat % D.chains.length = b)
    (hnone : D.find k = none) (hhead : m.memory.getPtr (.ref D.table) b = .ok head)
    (hkey : Machine.setPtr (.ref a) Link.key k m = .ok () m₂)
    (hvalue : Machine.setPtr (.ref a) Link.value v m₂ = .ok () m₃)
    (hnext : Machine.setPtr (.ref a) Link.next head m₃ = .ok () m₄)
    (hfirst : Machine.setPtr (.ref D.table) b (.ref a) m₄ = .ok () m₅) :
    m.Edits (fun y _ => y = a.offset ∨ D.Part y) [] m.memory.unmoved m₅ ∧
      m₅.IsMap (D.push b ⟨.ref a, k, v⟩) := by
  have htable := h.holds_table hm
  have hheld := (hm.memory.holds_getPtr htable hhead).2
  -- Three fields of the link are stored to, and the dictionary stays as it is.
  have he₂ : m.Edits (fun y _ => y = a.offset ∨ D.Part y) [] m.memory.unmoved m₂ :=
    (Edits.refl hm).setPtr ha hk hkey fun c y hc hy => .inl (Value.ref.inj hc ▸ hy.2)
  have he₃ := he₂.setPtr (he₂.holds (.unmoved ha)) (he₂.holds (.unmoved hv)) hvalue
    fun c y hc hy => .inl (Value.ref.inj hc ▸ hy.2)
  have he₄ := he₃.setPtr (he₃.holds (.unmoved ha)) (he₃.holds (.unmoved hheld)) hnext
    fun c y hc hy => .inl (Value.ref.inj hc ▸ hy.2)
  have h₂ := h.setPtr hm ha hpart hk hkey
  have h₃ := h₂.setPtr he₂.after (he₂.holds (.unmoved ha)) hpart (he₂.holds (.unmoved hv)) hvalue
  have h₄ := h₃.setPtr he₃.after (he₃.holds (.unmoved ha)) hpart (he₃.holds (.unmoved hheld)) hnext
  have hget₂ := fun {w} => getPtr_after_setPtr hm ha hk hkey (u := w)
  have hget₃ := fun {w} => getPtr_after_setPtr he₂.after (he₂.holds (.unmoved ha))
    (he₂.holds (.unmoved hv)) hvalue (u := w)
  have hget₄ := fun {w} => getPtr_after_setPtr he₃.after (he₃.holds (.unmoved ha))
    (he₃.holds (.unmoved hheld)) hnext (u := w)
  have hat : a ≠ D.table := fun hc => hpart (.inr (.inl (congrArg Address.offset hc)))
  have hne : ∀ i, ¬ (Value.ref D.table = .ref a ∧ b = i) :=
    fun _ hc => hat (Value.ref.inj hc.1).symm
  have hnil₄ : m₄.nil = m.nil := by rw [nil_setPtr hnext, nil_setPtr hvalue, nil_setPtr hkey]
  have hkey₄ : m₄.memory.getPtr (.ref a) Link.key = .ok k := by
    rw [hget₄ (he₃.holds (.unmoved ha)), if_neg fun hc => absurd hc.2 (by decide),
      hget₃ (he₂.holds (.unmoved ha)), if_neg fun hc => absurd hc.2 (by decide), hget₂ ha,
      if_pos ⟨rfl, rfl⟩]
  have hvalue₄ : m₄.memory.getPtr (.ref a) Link.value = .ok v := by
    rw [hget₄ (he₃.holds (.unmoved ha)), if_neg fun hc => absurd hc.2 (by decide),
      hget₃ (he₂.holds (.unmoved ha)), if_pos ⟨rfl, rfl⟩]
  have hnext₄ : m₄.memory.getPtr (.ref a) Link.next = m₄.memory.getPtr (.ref D.table) b := by
    rw [hget₄ (he₃.holds (.unmoved ha)), if_pos ⟨rfl, rfl⟩, hget₄ (he₃.holds (.unmoved htable)),
      if_neg (hne _), hget₃ (he₂.holds (.unmoved htable)), if_neg (hne _), hget₂ htable,
      if_neg (hne _), hhead]
  obtain ⟨hpush, h₅⟩ := h₄.push he₄.after (he₄.holds (.unmoved ha)) (hnil₄ ▸ hnil) hpart
    hkey₄ hvalue₄ ((he₄.hash (.unmoved hk)).trans hhash) hb hnone hnext₄ hfirst
  exact ⟨he₄.trans_unmoved hpush (fun _ _ => id) fun x x' i hx hx' => .inr (hx.2 ▸ hx'), h₅⟩

/-- **A new link for a key.** -/
theorem addDictionaryLink_eq_ok (hm : m.WellFormed) (h : m.IsMap D) (hk : m.memory.Holds k)
    (hv : m.memory.Holds v) (hnone : D.find k = none)
    (hrun : addDictionaryLink (.ref D.object) k v m = .ok () m₁) :
    ∃ σ D₁ a b k' v', m.Edits (fun x _ => D.Part x) [] σ m₁ ∧ σ.Closed m.memory ∧ D.Renames σ D₁ ∧
      Value.Renames σ k k' ∧ Value.Renames σ v v' ∧ (∀ x, ¬ σ x a.offset) ∧
      m₁.IsMap (D₁.push b ⟨.ref a, k', v'⟩) ∧ ∃ ns, D₁.chains[b]? = some ns := by
  obtain ⟨⟨_, d', k', v'⟩, m₂, hholding, hrun⟩ := bind_eq_ok hrun
  obtain ⟨m₃, scratch, hcreate, rfl, hback⟩ := holding₃_eq_ok hm h.held hk hholding
  rw [register_bind] at hcreate
  have hheld : (m.withScratch
      (m.registers.scratch ++ #[.ref D.object] ++ #[k] ++ #[v])).WellFormed :=
    ((hm.hold h.held).hold hk).hold hv
  obtain ⟨σ, a, rfl, hlink⟩ := createFields_eq_ok hheld (hm.registers.get .linkClass) hcreate
  obtain ⟨he, hd, hk', hv'⟩ := hback _ _ _ hlink.toEdits
  have hlink := hlink.withScratch he
  generalize m₃.withScratch scratch = m₂ at *
  obtain ⟨D₁, rfl, hren, h₁⟩ := h.edits he hd fun _ _ _ => id
  obtain ⟨hash, hhash⟩ := exists_hash he.after.memory (he.holds hk')
  obtain ⟨⟨table, bucket⟩, hbucket, hrun⟩ := read_bind_eq_ok hrun
  obtain ⟨rfl, rfl⟩ := Prod.mk.inj (Except.ok.inj ((h₁.dictionaryBucket hhash).symm.trans hbucket))
  obtain ⟨head, hhead, hrun⟩ := read_bind_eq_ok hrun
  obtain ⟨_, m₄, hkey, hrun⟩ := bind_eq_ok hrun
  obtain ⟨_, m₅, hvalue, hrun⟩ := bind_eq_ok hrun
  obtain ⟨_, m₆, hnext, hfirst⟩ := bind_eq_ok hrun
  have hpart := not_part_of_fresh hren hlink.fresh
  have hnone₁ : D₁.find k' = none := by
    have hfound : Option.Rel _ (D.find k) (D₁.find k') := find_renames he hren.nodes hk'
    rw [hnone] at hfound
    generalize D₁.find k' = found at hfound
    cases hfound
    rfl
  obtain ⟨hattach, hpush⟩ :=
    h₁.attach he.after (.ref hlink.mem) (he.nil.ne_new hlink.fresh).symm hpart
    (he.holds hk') (he.holds hv') hhash rfl hnone₁ hhead hkey hvalue hnext hfirst
  refine ⟨σ, D₁, a, _, k', v', ?_, he.closed, hren, hk', hv', hlink.fresh, hpush,
    _, List.getElem?_eq_getElem (Nat.mod_lt _ h₁.pos)⟩
  refine he.trans_unmoved hattach (fun _ _ hc => absurd hc id) fun x x' i hx hx' => ?_
  rcases hx' with rfl | hx'
  · exact absurd hx (hlink.fresh x)
  · obtain ⟨y, hy, hyx⟩ := hren.part hx'
    exact he.persists.injective _ _ _ hx hyx ▸ hy

/-- **Entering a key.** -/
theorem dictionaryEnter_eq_ok (hm : m.WellFormed) (h : m.IsMap D) (hk : m.memory.Holds k)
    (hv : m.memory.Holds v) (hrun : dictionaryEnter (.ref D.object) k v m = .ok () m₁) :
    ∃ σ D₁ D₂ k' v', m.Edits (fun x _ => D.Part x) [] σ m₁ ∧ σ.Closed m.memory ∧ D.Renames σ D₁ ∧
      Value.Renames σ k k' ∧ Value.Renames σ v v' ∧ m₁.IsMap D₂ ∧ D₂.object = D₁.object ∧
      (∀ key, D₂.lookup key = if key = k' then some v' else D₁.lookup key) ∧
      ∀ x', D₂.Part x' → D₁.Part x' ∨ ∀ x, ¬ σ x x' := by
  obtain ⟨found, hfound, hrun⟩ := read_bind_eq_ok hrun
  rw [h.dictionaryLink hm hk] at hfound
  obtain rfl := Except.ok.inj hfound
  cases hfind : D.find k with
  | some x =>
    rw [hfind] at hrun
    obtain ⟨he, h₁⟩ := h.assign hm hfind hv hrun
    refine ⟨_, D, D.assign k v, k, v, he, hm.memory.closed_unmoved, h.renames_unmoved hm,
      .unmoved hk, .unmoved hv, h₁, rfl, Dict.lookup_assign hfind, ?_⟩
    rintro x' (hx' | hx' | ⟨y', hy', hx'⟩)
    · exact .inl (.inl hx')
    · exact .inl (.inr (.inl hx'))
    · obtain ⟨y, hy, hlink, -⟩ := Dict.exists_of_mem_assign hy'
      exact .inl (.inr (.inr ⟨y, hy, hlink ▸ hx'⟩))
  | none =>
    rw [hfind] at hrun
    obtain ⟨σ, D₁, a, b, k', v', he, hclosed, hren, hk', hv', hfresh, h₁, ns, hns⟩ :=
      addDictionaryLink_eq_ok hm h hk hv hfind hrun
    refine ⟨σ, D₁, _, k', v', he, hclosed, hren, hk', hv', h₁, rfl,
      Dict.lookup_push hns h₁.unique, ?_⟩
    rintro x' (hx' | hx' | ⟨y, hy, hx'⟩)
    · exact .inl (.inl hx')
    · exact .inl (.inr (.inl hx'))
    · rcases (Dict.mem_push hns).1 hy with rfl | hy
      · obtain ⟨c, hc, rfl⟩ := hx'
        exact .inr (Value.ref.inj hc ▸ hfresh)
      · exact .inl (.inr (.inr ⟨y, hy, hx'⟩))

end Operations

end Machine

/-! ## Several dictionaries -/

section Families

variable {ι : Type} {T : Nat → Nat → Prop} {K : List Root} {σ : Renaming} {m m₁ : Machine}
  {D D' E E' : Dict} {Ds Ds₁ Es : ι → Option Dict} {i : ι}

/-- There are these dictionaries, which have no object in common. -/
structure Machine.Family (m : Machine) (Ds : ι → Option Dict) : Prop where
  isMap : ∀ i D, Ds i = some D → m.IsMap D
  apart : ∀ i j D E, Ds i = some D → Ds j = some E → i ≠ j → ∀ x, D.Part x → ¬ E.Part x

/-- The dictionaries that are still there have been moved at most. -/
structure Dict.Moved (σ : Renaming) (Ds Ds₁ : ι → Option Dict) : Prop where
  old : ∀ i D', Ds₁ i = some D' → ∃ D, Ds i = some D ∧ D.Renames σ D'
  kept : ∀ i D w, Ds i = some D → Value.Renames σ (.ref D.object) w →
    ∃ D', Ds₁ i = some D' ∧ D.Renames σ D' ∧ w = .ref D'.object

/-- Dictionaries without a common object are moved to such dictionaries. -/
theorem Dict.Renames.apart (he : m.Edits T K σ m₁) (hD : D.Renames σ D') (hE : E.Renames σ E')
    (h : ∀ x, D.Part x → ¬ E.Part x) (x' : Nat) (hx : D'.Part x') : ¬ E'.Part x' := by
  intro hx'
  obtain ⟨x, hpart, hren⟩ := hD.part hx
  obtain ⟨y, hpart', hren'⟩ := hE.part hx'
  exact h x hpart (he.persists.injective _ _ _ hren hren' ▸ hpart')

namespace Machine

/-- Some of the dictionaries. -/
theorem Family.mono (h : m.Family Ds) (hsub : ∀ i D, Es i = some D → Ds i = some D) :
    m.Family Es where
  isMap := fun i D hD => h.isMap i D (hsub i D hD)
  apart := fun i j D E hD hE => h.apart i j D E (hsub i D hD) (hsub j E hE)

theorem update_none_of_eq_some [DecidableEq ι] {j : ι} (h : Function.update Ds i none j = some D) :
    j ≠ i ∧ Ds j = some D := by
  by_cases hj : j = i
  · rw [hj, Function.update_self] at h
    cases h
  · exact ⟨hj, by rwa [Function.update_of_ne hj] at h⟩

/-- With another dictionary. -/
theorem Family.insert [DecidableEq ι] (h : m.Family Ds) (hD : m.IsMap D)
    (hapart : ∀ j E, j ≠ i → Ds j = some E → ∀ x, D.Part x → ¬ E.Part x) :
    m.Family (Function.update Ds i (some D)) := by
  have hcases : ∀ j E, Function.update Ds i (some D) j = some E →
      (j = i ∧ E = D) ∨ (j ≠ i ∧ Ds j = some E) := by
    intro j E hE
    by_cases hj : j = i
    · rw [hj, Function.update_self] at hE
      exact .inl ⟨hj, (Option.some.inj hE).symm⟩
    · rw [Function.update_of_ne hj] at hE
      exact .inr ⟨hj, hE⟩
  constructor
  case isMap =>
    intro j E hE
    rcases hcases j E hE with ⟨-, rfl⟩ | ⟨-, hE⟩
    · exact hD
    · exact h.isMap j E hE
  case apart =>
    intro j k E F hE hF hjk x hx hx'
    rcases hcases j E hE with ⟨rfl, rfl⟩ | ⟨hj, hEj⟩
    · rcases hcases k F hF with ⟨rfl, -⟩ | ⟨hk, hFk⟩
      · exact hjk rfl
      · exact hapart k F hk hFk x hx hx'
    · rcases hcases k F hF with ⟨rfl, rfl⟩ | ⟨-, hFk⟩
      · exact hapart j E hj hEj x hx' hx
      · exact h.apart j k E F hEj hFk hjk x hx hx'

/-- **Dictionaries are left alone** by edits of other objects. -/
theorem Family.edits (he : m.Edits T K σ m₁) (h : m.Family Ds)
    (hT : ∀ i D, Ds i = some D → ∀ x j, D.Part x → ¬ T x j) :
    ∃ Ds₁, Dict.Moved σ Ds Ds₁ ∧ m₁.Family Ds₁ := by
  classical
  have hmoved : ∀ i, ∃ o : Option Dict,
      (∀ D', o = some D' → m₁.IsMap D' ∧ ∃ D, Ds i = some D ∧ D.Renames σ D') ∧
      ∀ D w, Ds i = some D → Value.Renames σ (.ref D.object) w →
        ∃ D', o = some D' ∧ D.Renames σ D' ∧ w = .ref D'.object := by
    intro i
    by_cases hkept : ∃ D w, Ds i = some D ∧ Value.Renames σ (.ref D.object) w
    · obtain ⟨D, w, hD, hw⟩ := hkept
      obtain ⟨D', rfl, hren, hmap⟩ := (h.isMap i D hD).edits he hw (hT i D hD)
      refine ⟨some D', fun D₂ hD₂ => ?_, fun D₂ w₂ hD₂ hw₂ => ?_⟩
      · obtain rfl := Option.some.inj hD₂
        exact ⟨hmap, D, hD, hren⟩
      · obtain rfl := Option.some.inj (hD.symm.trans hD₂)
        exact ⟨D', rfl, hren, ((he.eq_iff hw hw₂).1 rfl).symm⟩
    · exact ⟨none, nofun, fun D w hD hw => absurd ⟨D, w, hD, hw⟩ hkept⟩
  choose Ds₁ hold hkept using hmoved
  refine ⟨Ds₁, ⟨fun i D' hD' => (hold i D' hD').2, hkept⟩, fun i D' hD' => (hold i D' hD').1, ?_⟩
  intro i j D' E' hD' hE' hij x' hx hx'
  obtain ⟨-, D, hD, hrenD⟩ := hold i D' hD'
  obtain ⟨-, E, hE, hrenE⟩ := hold j E' hE'
  exact hrenD.apart he hrenE (h.apart i j D E hD hE hij) x' hx hx'

/-- **A key is entered into one of several dictionaries.** -/
theorem Family.enter [DecidableEq ι] (hm : m.WellFormed) (h : m.Family Ds) (hD : Ds i = some D)
    {k v : Value} (hk : m.memory.Holds k) (hv : m.memory.Holds v)
    (hrun : dictionaryEnter (.ref D.object) k v m = .ok () m₁) :
    ∃ σ Ds₁ D₁ D₂ k' v', m.Edits (fun x _ => D.Part x) [] σ m₁ ∧ σ.Closed m.memory ∧
      Value.Renames σ k k' ∧ Value.Renames σ v v' ∧
      Dict.Moved σ Ds (Function.update Ds₁ i (some D₁)) ∧
      m₁.Family (Function.update Ds₁ i (some D₂)) ∧ D₂.object = D₁.object ∧
      (∀ key, D₂.lookup key = if key = k' then some v' else D₁.lookup key) ∧
      ∀ x', D₂.Part x' → D₁.Part x' ∨ ∀ x, ¬ σ x x' := by
  obtain ⟨σ, D₁, D₂, k', v', he, hclosed, hD₁, hk', hv', hD₂, hobject, hlookup, hpart⟩ :=
    dictionaryEnter_eq_ok hm (h.isMap i D hD) hk hv hrun
  -- The other dictionaries have no object in common with this one.
  have hothers : m.Family (Function.update Ds i none) :=
    h.mono fun j E hE => (update_none_of_eq_some hE).2
  obtain ⟨Ds₁, hmoved, hfamily⟩ := hothers.edits he fun j E hE x _ hx hx' => by
    obtain ⟨hj, hE⟩ := update_none_of_eq_some hE
    exact h.apart j i E D hE hD hj x hx hx'
  have hold : ∀ j E', j ≠ i → Ds₁ j = some E' → ∃ E, Ds j = some E ∧ E.Renames σ E' := by
    intro j E' hj hE'
    obtain ⟨E, hE, hren⟩ := hmoved.old j E' hE'
    exact ⟨E, (update_none_of_eq_some hE).2, hren⟩
  refine ⟨σ, Ds₁, D₁, D₂, k', v', he, hclosed, hk', hv', ⟨?_, ?_⟩, hfamily.insert hD₂ ?_, hobject,
    hlookup, hpart⟩
  · intro j E' hE'
    by_cases hj : j = i
    · rw [hj, Function.update_self] at hE'
      obtain rfl := Option.some.inj hE'
      exact ⟨D, hj ▸ hD, hD₁⟩
    · rw [Function.update_of_ne hj] at hE'
      exact hold j E' hj hE'
  · intro j E w hE hw
    by_cases hj : j = i
    · subst hj
      obtain rfl := Option.some.inj (hD.symm.trans hE)
      refine ⟨D₁, Function.update_self .., hD₁, ?_⟩
      exact ((he.eq_iff hw (.ref hD₁.object)).1 rfl)
    · rw [Function.update_of_ne hj]
      exact hmoved.kept j E w ((Function.update_of_ne hj ..).trans hE) hw
  · intro j E' hj hE' x' hx hx'
    obtain ⟨E, hE, hren⟩ := hold j E' hj hE'
    rcases hpart x' hx with hx | hx
    · exact hD₁.apart he hren (h.apart i j D E hD hE hj.symm) x' hx hx'
    · obtain ⟨y, -, hy⟩ := hren.part hx'
      exact hx y hy

end Machine

end Families

end Smalltalk
