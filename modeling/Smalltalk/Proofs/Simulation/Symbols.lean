import Smalltalk.Proofs.Simulation.Allocation
import Smalltalk.Proofs.Walk

/-!
# Symbols, globals, dictionaries and classes

Related machines have the same names. What they find under a name is paired, and if a name is
missing in one it is missing in the other; what is made for it is then paired too.

A walk along a chain is followed in both machines step by step, which needs the same number of steps
in both. The machines allow themselves different numbers, and `Smalltalk.Proofs.Walk` says why that
does not show.

## Main results

* `Related.findSymbolLink`, `Related.dictionaryLink`, `Related.findMethod`,
  `Related.instanceVariables`: finding
* `intern_moves`, `setGlobal_moves`, `dictionaryEnter_moves`, `installMethod_moves`: making
-/

namespace Smalltalk

open Memory Machine Layout

/-! ## Finding -/

namespace Related

variable {S : Setting} {ρ σ : Renaming} {n : Nat} {m m' : Machine} {v v' w w' : Value}

theorem stringValue (hm : Related S ρ n m m') (hv : Value.Renames ρ v v') :
    Agree σ Eq (m.stringValue v) (m'.stringValue v') :=
  (hm.corresponds.bytes hv).eq_bind fun _ => .pure rfl

theorem characterValue (hm : Related S ρ n m m') (hv : Value.Renames ρ v v') :
    Agree σ Eq (m.characterValue v) (m'.characterValue v') := by
  cases hv with
  | small k => exact .fault (.same trivial)
  | ref hab =>
    have hv := Value.Renames.ref hab
    refine (hm.corresponds.classOf hv).bind fun cls cls' hcls => ?_
    refine .ite (not_congr (hm.eq_iff hcls (hm.get .characterClass)))
      (fun _ => .fault (.same trivial)) fun _ => ?_
    exact hm.corresponds.getByte hv 0

/-! ### Chains -/

theorem findInChain (hm : Related S ρ n m m') {test test' : Value → Except Fault Bool}
    (htest : ∀ v v', Value.Renames ρ v v' → Agree σ Eq (test v) (test' v')) (k : Nat)
    (hv : Value.Renames ρ v v') :
    Agree σ (Option.Rel (Value.Renames ρ)) (m.findInChain test k v)
      (m'.findInChain test' k v') := by
  induction k generalizing v v' with
  | zero => exact .pure .none
  | succ k ih =>
    refine .ite (hm.eq_nil_iff hv) (fun _ => .pure .none) fun _ => ?_
    refine (htest v v' hv).eq_bind fun found => ?_
    refine .ite Iff.rfl (fun _ => .pure (.some hv)) fun _ => ?_
    exact (hm.corresponds.getPtr hv Link.next).bind fun w w' hw => ih hw

/-- The machines allow themselves different numbers of steps. -/
theorem findInChain_chainBound (hm : Related S ρ n m m') {test test' : Value → Except Fault Bool}
    (htest : ∀ v v', Value.Renames ρ v v' → Agree σ Eq (test v) (test' v'))
    (hv : Value.Renames ρ v v') :
    Agree σ (Option.Rel (Value.Renames ρ)) (m.findInChain test m.chainBound v)
      (m'.findInChain test' m'.chainBound v') := by
  rw [findInChain_eq hm.corresponds.left test (hm.corresponds.holds_left hv) le_rfl
      (le_max_left m.chainBound m'.chainBound),
    findInChain_eq hm.corresponds.right test' (hm.corresponds.holds_right hv) le_rfl
      (le_max_right m.chainBound m'.chainBound)]
  exact hm.findInChain htest _ hv

theorem symbolBucket (hm : Related S ρ n m m') (hash : UInt32) :
    Agree σ (fun p p' => Value.Renames ρ p.1 p'.1 ∧ p.2 = p'.2) (m.symbolBucket hash)
      (m'.symbolBucket hash) := by
  refine (hm.corresponds.getPtr (hm.get .smalltalk) Dictionary.table).bind fun table table' ht => ?_
  refine (hm.corresponds.size ht).eq_bind fun buckets => ?_
  exact .ite Iff.rfl (fun _ => .fault (.same trivial)) fun _ => .pure ⟨ht, rfl⟩

theorem isKey (hm : Related S ρ n m m') (hash : UInt32) (name : List UInt8)
    (hv : Value.Renames ρ v v') : Agree σ Eq (m.isKey hash name v) (m'.isKey hash name v') := by
  refine (hm.corresponds.getPtr hv Link.key).bind fun key key' hkey => ?_
  refine .ite (hm.eq_nil_iff hkey) (fun _ => .pure rfl) fun _ => ?_
  refine (hm.corresponds.hash hkey).eq_bind fun h => ?_
  refine .ite Iff.rfl (fun _ => .pure rfl) fun _ => ?_
  refine (hm.corresponds.kind hkey).eq_bind fun kind => ?_
  refine .ite Iff.rfl (fun _ => .pure rfl) fun _ => ?_
  exact (hm.corresponds.bytes hkey).eq_bind fun bytes => .pure rfl

theorem findSymbolLink (hm : Related S ρ n m m') (name : List UInt8) :
    Agree σ (Option.Rel (Value.Renames ρ)) (m.findSymbolLink name) (m'.findSymbolLink name) := by
  refine (hm.symbolBucket (symbolHash name)).bind ?_
  rintro ⟨table, bucket⟩ ⟨table', _⟩ ⟨ht, rfl⟩
  refine (hm.corresponds.getPtr ht bucket).bind fun link link' hlink => ?_
  exact hm.findInChain_chainBound (fun _ _ hv => hm.isKey (symbolHash name) name hv) hlink

theorem globalValue (hm : Related S ρ n m m') (name : String) :
    Agree σ (Option.Rel (Value.Renames ρ)) (m.globalValue name) (m'.globalValue name) := by
  refine (hm.findSymbolLink (Text.utf8 name)).bind fun found found' hfound => ?_
  cases hfound with
  | none => exact .pure .none
  | some hlink =>
    exact (hm.corresponds.getPtr hlink Link.value).bind fun _ _ hvalue => .pure (.some hvalue)

/-! ### Dictionaries -/

theorem dictionaryBucket (hm : Related S ρ n m m') (hv : Value.Renames ρ v v')
    (hw : Value.Renames ρ w w') :
    Agree σ (fun p p' => Value.Renames ρ p.1 p'.1 ∧ p.2 = p'.2) (m.dictionaryBucket v w)
      (m'.dictionaryBucket v' w') := by
  refine (hm.corresponds.getPtr hv Dictionary.table).bind fun table table' ht => ?_
  refine (hm.corresponds.size ht).eq_bind fun buckets => ?_
  refine .ite Iff.rfl (fun _ => .fault (.same trivial)) fun _ => ?_
  exact (hm.corresponds.hash hw).eq_bind fun hash => .pure ⟨ht, rfl⟩

theorem dictionaryLink (hm : Related S ρ n m m') (hv : Value.Renames ρ v v')
    (hw : Value.Renames ρ w w') :
    Agree σ (Option.Rel (Value.Renames ρ)) (m.dictionaryLink v w) (m'.dictionaryLink v' w') := by
  refine (hm.dictionaryBucket hv hw).bind ?_
  rintro ⟨table, bucket⟩ ⟨table', _⟩ ⟨ht, rfl⟩
  refine (hm.corresponds.getPtr ht bucket).bind fun link link' hlink => ?_
  refine hm.findInChain_chainBound (fun l l' hl => ?_) hlink
  refine (hm.corresponds.getPtr hl Link.key).bind fun key key' hkey => .pure ?_
  exact decide_eq_decide.2 (hm.eq_iff hkey hw)

theorem dictionaryLookup (hm : Related S ρ n m m') (hv : Value.Renames ρ v v')
    (hw : Value.Renames ρ w w') :
    Agree σ (Option.Rel (Value.Renames ρ)) (m.dictionaryLookup v w)
      (m'.dictionaryLookup v' w') := by
  refine (hm.dictionaryLink hv hw).bind fun found found' hfound => ?_
  cases hfound with
  | none => exact .pure .none
  | some hlink =>
    exact (hm.corresponds.getPtr hlink Link.value).bind fun _ _ hvalue => .pure (.some hvalue)

/-! ### Classes -/

/-- A class is named alike, or has no name and is named by its address. -/
theorem className (hm : Related S ρ n m m') (hv : Value.Renames ρ v v') :
    m.className v = m'.className v' ∨ (m.className v = v.text ∧ m'.className v' = v'.text) := by
  unfold Machine.className
  obtain ⟨a, _, hx, hx', rfl⟩ | ⟨e, e', hx, hx', -⟩ :=
    ((hm.corresponds.getPtr (σ := ρ) hv Behavior.name).bind fun _ _ h => hm.stringValue h).cases
  · rw [hx, hx']
    exact .inl rfl
  · rw [hx, hx']
    exact .inr ⟨rfl, rfl⟩

theorem selectorText (hm : Related S ρ n m m') (hv : Value.Renames ρ v v') :
    m.selectorText v = m'.selectorText v' := by
  unfold Machine.selectorText
  obtain ⟨a, _, hx, hx', rfl⟩ | ⟨e, e', hx, hx', -⟩ := (hm.stringValue (σ := ρ) hv).cases
  · rw [hx, hx']
  · rw [hx, hx']

theorem ownMethod (hm : Related S ρ n m m') (hv : Value.Renames ρ v v')
    (hw : Value.Renames ρ w w') :
    Agree σ (Option.Rel (Value.Renames ρ)) (m.ownMethod w v) (m'.ownMethod w' v') := by
  refine (hm.corresponds.getPtr hv Behavior.methods).bind fun methods methods' hmethods => ?_
  exact .ite (hm.eq_nil_iff hmethods) (fun _ => .pure .none) fun _ =>
    hm.dictionaryLookup hmethods hw

theorem findMethodFrom (hm : Related S ρ n m m') (hw : Value.Renames ρ w w') (k : Nat)
    (hv : Value.Renames ρ v v') :
    Agree σ (Option.Rel (Value.Renames ρ)) (m.findMethodFrom w k v)
      (m'.findMethodFrom w' k v') := by
  induction k generalizing v v' with
  | zero => exact .pure .none
  | succ k ih =>
    rw [findMethodFrom_succ, findMethodFrom_succ]
    refine .ite (hm.eq_nil_iff hv) (fun _ => .pure .none) fun _ => ?_
    obtain ⟨found, found', hx, hx', hfound⟩ | ⟨e, e', hx, hx', he⟩ :=
      (hm.ownMethod (σ := σ) hv hw).cases
    · rw [hx, hx']
      cases hfound with
      | some hmethod => exact .ok (.some hmethod)
      | none =>
        exact (hm.corresponds.getPtr hv Behavior.superclass).bind fun cls cls' hcls => ih hcls
    · rw [hx, hx']
      exact .error he

theorem findMethod (hm : Related S ρ n m m') (hv : Value.Renames ρ v v')
    (hw : Value.Renames ρ w w') :
    Agree ρ (Value.Renames ρ) (m.findMethod v w) (m'.findMethod v' w') := by
  unfold Machine.findMethod
  rw [findMethodFrom_eq hm.corresponds.left w (hm.corresponds.holds_left hv) le_rfl
      (le_max_left m.chainBound m'.chainBound),
    findMethodFrom_eq hm.corresponds.right w' (hm.corresponds.holds_right hv) le_rfl
      (le_max_right m.chainBound m'.chainBound)]
  refine (hm.findMethodFrom hw _ hv).bind fun found found' hfound => ?_
  cases hfound with
  | some hmethod => exact .pure hmethod
  | none =>
    rw [hm.selectorText hw]
    rcases hm.className hv with h | ⟨h, h'⟩
    · rw [h]
      exact .fault (.same trivial)
    · rw [h, h']
      exact .fault (.messageNotUnderstood _ hv)

theorem superclassChain (hm : Related S ρ n m m') (k : Nat) (hv : Value.Renames ρ v v') :
    Agree σ (Option.Rel (List.Forall₂ (Value.Renames ρ))) (m.superclassChain k v)
      (m'.superclassChain k v') := by
  induction k generalizing v v' with
  | zero => exact .pure .none
  | succ k ih =>
    refine .ite (hm.eq_nil_iff hv) (fun _ => .pure (.some .nil)) fun _ => ?_
    refine (hm.corresponds.getPtr hv Behavior.superclass).bind fun cls cls' hcls => ?_
    refine (ih hcls).bind fun above above' habove => .pure ?_
    cases habove with
    | none => exact .none
    | some h => exact .some (.cons hv h)

theorem ownVariables (hm : Related S ρ n m m') (hv : Value.Renames ρ v v') :
    Agree σ Eq (m.ownVariables v) (m'.ownVariables v') := by
  refine (hm.corresponds.getPtr hv Behavior.variableNames).bind fun names names' hnames => ?_
  refine .ite (hm.eq_nil_iff hnames) (fun _ => .pure rfl) fun _ => ?_
  refine (hm.corresponds.size hnames).eq_bind fun size => ?_
  refine .mapM_eq (List.forall₂_same.2 fun i _ => ?_)
  exact (hm.corresponds.getPtr hnames i).bind fun _ _ h => hm.stringValue h

theorem instanceVariables (hm : Related S ρ n m m') (hv : Value.Renames ρ v v') :
    Agree σ Eq (m.instanceVariables v) (m'.instanceVariables v') := by
  unfold Machine.instanceVariables
  rw [superclassChain_eq hm.corresponds.left (hm.corresponds.holds_left hv) le_rfl
      (le_max_left m.chainBound m'.chainBound),
    superclassChain_eq hm.corresponds.right (hm.corresponds.holds_right hv) le_rfl
      (le_max_right m.chainBound m'.chainBound)]
  refine (hm.superclassChain _ hv).bind fun chain chain' hchain => ?_
  have hlist : List.Forall₂ (Value.Renames ρ) (chain.getD []) (chain'.getD []) := by
    cases hchain with
    | none => exact .nil
    | some h => exact h
  refine Agree.eq_bind (.mapM_eq ?_) fun names => .pure rfl
  exact (List.rel_reverse hlist).imp fun _ _ h => hm.ownVariables h

theorem lookupClass (hm : Related S ρ n m m') (name : String) :
    Agree σ (Option.Rel (Value.Renames ρ)) (m.lookupClass name) (m'.lookupClass name) := by
  refine (hm.globalValue name).bind fun found found' hfound => ?_
  cases hfound with
  | none => exact .pure .none
  | some hvalue =>
    refine .ite (or_congr (by rw [hvalue.isSmall]) (hm.eq_nil_iff hvalue)) (fun _ => .pure .none)
      fun _ => ?_
    refine (hm.classOf hvalue).bind fun metaclass metaclass' hmeta => ?_
    refine (hm.classOf hmeta).bind fun cls cls' hcls => ?_
    exact .ite (hm.eq_iff hcls (hm.get .metaclassClass)) (fun _ => .pure (.some hvalue))
      fun _ => .pure .none

end Related

/-! ## Making -/

section Making

variable {S : Setting} {ρ : Renaming} {n : Nat} {v v' w w' u u' : Value}

theorem newBytes_moves (hv : Value.Renames ρ v v') (bytes : List UInt8) :
    Moves S ρ n (newBytes v bytes) (newBytes v' bytes) Value.Renames := by
  unfold newBytes
  refine Moves.bind (createObject_moves hv bytes.length .bytes) fun ρ₁ object object' hobject => ?_
  refine (onMemory_keeps fun _ _ hh => hh.setBytes hobject bytes).eq_bind fun _ => ?_
  exact Moves.pure hobject

theorem newString_moves (text : String) :
    Moves S ρ n (newString text) (newString text) Value.Renames :=
  (register_keeps .stringClass).bind fun _ _ hcls => newBytes_moves hcls _

theorem newFloat_moves (x : Double) : Moves S ρ n (newFloat x) (newFloat x) Value.Renames :=
  (register_keeps .floatClass).bind fun _ _ hcls => newBytes_moves hcls _

theorem symbolBucket_keeps (hash : UInt32) :
    Keeps S ρ n (read (·.symbolBucket hash)) (read (·.symbolBucket hash))
      fun p p' => Value.Renames ρ p.1 p'.1 ∧ p.2 = p'.2 :=
  read_keeps fun _ _ hm => hm.symbolBucket hash

/-- A link and its key are made one after the other; between the two the link is in the table. -/
theorem addSymbolLink_moves (name : List UInt8) :
    Moves S ρ n (addSymbolLink name) (addSymbolLink name) Value.Renames := by
  unfold addSymbolLink
  refine (register_keeps .linkClass).bind fun cls cls' hcls => ?_
  refine Moves.bind (createObject_moves hcls Link.size .pointers) fun ρ₁ link link' hlink => ?_
  refine (symbolBucket_keeps (symbolHash name)).bind ?_
  rintro ⟨table, bucket⟩ ⟨table', _⟩ ⟨htable, rfl⟩
  refine (getPtr_keeps htable bucket).bind fun head head' hhead => ?_
  refine (setPtr_keeps hlink Link.next hhead).eq_bind fun _ => ?_
  refine (setPtr_keeps htable bucket hlink).eq_bind fun _ => ?_
  refine (register_keeps .symbolClass).bind fun cls cls' hcls => ?_
  refine Moves.bind (newBytes_moves hcls name) fun ρ₂ symbol symbol' hsymbol => ?_
  refine (onMemory_keeps fun _ _ hh => hh.setHash hsymbol (symbolHash name)).eq_bind fun _ => ?_
  refine (symbolBucket_keeps (symbolHash name)).bind ?_
  rintro ⟨table, bucket⟩ ⟨table', _⟩ ⟨htable, rfl⟩
  refine (getPtr_keeps htable bucket).bind fun link link' hlink => ?_
  refine (setPtr_keeps hlink Link.key hsymbol).eq_bind fun _ => ?_
  exact Moves.pure hlink

theorem intern_moves (name : List UInt8) :
    Moves S ρ n (intern name) (intern name) Value.Renames := by
  unfold intern
  refine Keeps.bind (read_keeps fun _ _ hm => hm.findSymbolLink name) fun found found' hfound => ?_
  cases hfound with
  | some hlink => exact Moves.pure hlink
  | none => exact addSymbolLink_moves name

theorem newSymbol_moves (name : String) :
    Moves S ρ n (newSymbol name) (newSymbol name) Value.Renames := by
  unfold newSymbol
  refine Moves.bind (intern_moves (Text.utf8 name)) fun ρ₁ link link' hlink => ?_
  exact (getPtr_keeps hlink Link.key).moves fun _ _ h => h

theorem globalLink_moves (name : String) :
    Moves S ρ n (globalLink name) (globalLink name) Value.Renames :=
  intern_moves (Text.utf8 name)

theorem setGlobal_moves (name : String) (hv : Value.Renames ρ v v') :
    Moves S ρ n (setGlobal name v) (setGlobal name v') fun _ => Eq := by
  unfold setGlobal
  refine Moves.bind (holding_moves hv (globalLink_moves name)) ?_
  rintro ρ₁ ⟨link, value⟩ ⟨link', value'⟩ ⟨hlink, hvalue⟩
  exact (setPtr_keeps hlink Link.value hvalue).moves fun _ _ h => h

theorem newDictionary_moves (hv : Value.Renames ρ v v') (buckets : Nat) :
    Moves S ρ n (newDictionary v buckets) (newDictionary v' buckets) Value.Renames := by
  unfold newDictionary
  refine Moves.bind (createObject_moves hv Dictionary.size .pointers) fun ρ₁ d d' hd => ?_
  refine Moves.bind (holding_moves hd ((register_keeps .arrayClass).bind fun _ _ hcls =>
    createObject_moves hcls buckets .pointers)) ?_
  rintro ρ₂ ⟨table, d⟩ ⟨table', d'⟩ ⟨htable, hd⟩
  refine (setPtr_keeps hd Dictionary.table htable).eq_bind fun _ => ?_
  exact Moves.pure hd

theorem addDictionaryLink_moves (hv : Value.Renames ρ v v') (hw : Value.Renames ρ w w')
    (hu : Value.Renames ρ u u') :
    Moves S ρ n (addDictionaryLink v w u) (addDictionaryLink v' w' u') fun _ => Eq := by
  unfold addDictionaryLink
  refine Moves.bind (holding₃_moves hv hw hu ((register_keeps .linkClass).bind fun _ _ hcls =>
    createObject_moves hcls Link.size .pointers)) ?_
  rintro ρ₁ ⟨link, d, key, value⟩ ⟨link', d', key', value'⟩ ⟨hlink, hd, hkey, hvalue⟩
  refine Keeps.bind (read_keeps fun _ _ hm => hm.dictionaryBucket hd hkey) ?_
  rintro ⟨table, bucket⟩ ⟨table', _⟩ ⟨htable, rfl⟩
  refine (getPtr_keeps htable bucket).bind fun head head' hhead => ?_
  refine (setPtr_keeps hlink Link.key hkey).eq_bind fun _ => ?_
  refine (setPtr_keeps hlink Link.value hvalue).eq_bind fun _ => ?_
  refine (setPtr_keeps hlink Link.next hhead).eq_bind fun _ => ?_
  exact (setPtr_keeps htable bucket hlink).moves fun _ _ h => h

theorem dictionaryEnter_moves (hv : Value.Renames ρ v v') (hw : Value.Renames ρ w w')
    (hu : Value.Renames ρ u u') :
    Moves S ρ n (dictionaryEnter v w u) (dictionaryEnter v' w' u') fun _ => Eq := by
  unfold dictionaryEnter
  refine Keeps.bind (read_keeps fun _ _ hm => hm.dictionaryLink hv hw) fun found found' hfound => ?_
  cases hfound with
  | some hlink => exact (setPtr_keeps hlink Link.value hu).moves fun _ _ h => h
  | none => exact addDictionaryLink_moves hv hw hu

theorem newMethodDictionary_moves :
    Moves S ρ n newMethodDictionary newMethodDictionary Value.Renames := by
  unfold newMethodDictionary
  refine Keeps.bind (read_keeps fun _ _ hm => hm.globalValue "Dictionary") fun cls cls' hcls => ?_
  refine nil_keeps.bind fun nil nil' hnil => newDictionary_moves ?_ Dictionary.buckets
  cases hcls with
  | some h => exact h
  | none => exact hnil

theorem installMethod_moves (hv : Value.Renames ρ v v') (hw : Value.Renames ρ w w') :
    Moves S ρ n (installMethod v w) (installMethod v' w') fun _ => Eq := by
  unfold installMethod
  refine (getPtr_keeps hv Behavior.methods).bind fun methods methods' hmethods => ?_
  refine Moves.bind (holding₂_moves (V := Value.Renames) hv hw ?_) ?_
  · refine nil_keeps.bind fun nil nil' hnil => ?_
    refine .comparing hmethods hnil fun heq => .ite heq (fun _ => ?_) fun _ => Moves.pure hmethods
    refine Moves.bind newMethodDictionary_moves fun ρ₁ methods methods' hmethods => ?_
    refine (held_keeps (by omega)).bind fun cls cls' hcls => ?_
    refine (setPtr_keeps hcls Behavior.methods hmethods).eq_bind fun _ => ?_
    exact Moves.pure hmethods
  · rintro ρ₁ ⟨methods, _, method⟩ ⟨methods', _, method'⟩ ⟨hmethods, -, hmethod⟩
    refine (getPtr_keeps hmethod Method.selector).bind fun selector selector' hselector => ?_
    exact dictionaryEnter_moves hmethods hselector hmethod

end Making

end Smalltalk
