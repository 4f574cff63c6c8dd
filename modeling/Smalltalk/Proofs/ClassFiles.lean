import Mathlib.Data.List.Basic
import Smalltalk.ClassFile.Basic

/-!
# Printing and reading class files

A class file is printed as the lines of its classes followed by its sections, with any lines that
mean nothing in between, and reading takes it back. The numbers of lines are found anew: what is
read carries the number of the line on which it stands in the text, whatever number it had before.

The reader takes a text line by line, and so does the argument. `Takes p n text q` says that the
reader, having read `p`, takes the lines of a text from number `n` on and has then read `q`; it is
composed along the text, whose lines are as many as its line feeds.

## Main definitions

* `ClassFile.textBefore`, `ClassFile.printed`: the text of a class file, and what stands before an
  item of it
* `lineBehind`: the number of the line that comes behind a piece of text
* `ClassFile.located`: a class file with the numbers of the lines on which it was printed

## Main results

* `Text.lines_unlines`, `Text.words_unwords`: lines and words of what is put together
* `takes_class`, `takes_section`: how one item is read
* `class_files_round_trip`
-/

namespace Smalltalk

/-! ## Words -/

namespace Text

/-- Words with a space between any two. -/
def unwords (ws : List String) : List Char := [' '].intercalate (ws.map String.toList)

/-- The word is not empty and free of blanks. -/
def IsWord (w : String) : Prop := w.toList ≠ [] ∧ ∀ c ∈ w.toList, isBlank c = false

-- the characters of the word are tried, not all characters
instance (w : String) : Decidable (IsWord w) :=
  @instDecidableAnd _ _ _ (List.decidableBAll _ _)

theorem words_blank {b : Char} (hb : isBlank b = true) (rest : List Char) :
    words (b :: rest) = words rest := by
  simp [words, hb]

/-- A word goes as far as the next blank, or to the end. -/
theorem words_append {w : List Char} (hne : w ≠ []) (hw : ∀ c ∈ w, isBlank c = false)
    {rest : List Char} (hrest : ∀ b ∈ rest.head?, isBlank b = true) :
    words (w ++ rest) = w :: words rest := by
  induction w with
  | nil => exact absurd rfl hne
  | cons c w ih =>
    obtain ⟨hc, hw⟩ := List.forall_mem_cons.1 hw
    cases w with
    | nil =>
      cases rest with
      | nil => simp [words, hc]
      | cons b rest =>
        have hb : isBlank b = true := hrest b rfl
        simp [words, hc, hb]
    | cons d w =>
      have hd := (List.forall_mem_cons.1 hw).1
      have hmore := ih (List.cons_ne_nil _ _) hw
      rw [List.cons_append] at hmore
      rw [List.cons_append, List.cons_append, words]
      simp [hc, hd, hmore]

/-- What is put together from words has these words. -/
theorem words_unwords {ws : List String} (h : ∀ w ∈ ws, IsWord w) :
    (words (unwords ws)).map String.ofList = ws := by
  induction ws with
  | nil => rfl
  | cons w ws ih =>
    obtain ⟨⟨hne, hw⟩, hws⟩ := List.forall_mem_cons.1 h
    cases ws with
    | nil =>
      have hword : words (w.toList ++ []) = w.toList :: words [] := words_append hne hw (by simp)
      rw [List.append_nil] at hword
      simp [unwords, List.intercalate, hword, words]
    | cons v vs =>
      have hsplit : unwords (w :: v :: vs) = w.toList ++ ' ' :: unwords (v :: vs) := by
        simp [unwords, List.intercalate]
      rw [hsplit, words_append hne hw (by simp [isBlank]), words_blank rfl, List.map_cons, ih hws,
        String.ofList_toList]

theorem forall_mem_unwords {ws : List String} {P : Char → Prop} (hspace : P ' ')
    (h : ∀ w ∈ ws, ∀ c ∈ w.toList, P c) : ∀ c ∈ unwords ws, P c := by
  induction ws with
  | nil => simp [unwords, List.intercalate]
  | cons w ws ih =>
    obtain ⟨hw, hws⟩ := List.forall_mem_cons.1 h
    cases ws with
    | nil => simpa [unwords, List.intercalate] using hw
    | cons v vs =>
      have hsplit : unwords (w :: v :: vs) = w.toList ++ ' ' :: unwords (v :: vs) := by
        simp [unwords, List.intercalate]
      rw [hsplit]
      intro c hc
      rcases List.mem_append.1 hc with hc | hc
      · exact hw c hc
      · rcases List.mem_cons.1 hc with rfl | hc
        · exact hspace
        · exact ih hws c hc

/-- No blank but the space stands in a text of words. -/
theorem notMem_unwords {ws : List String} (hws : ∀ w ∈ ws, IsWord w) {c : Char}
    (hc : isBlank c = true) (hspace : c ≠ ' ') : c ∉ unwords ws := by
  intro hmem
  refine forall_mem_unwords (P := (· ≠ c)) hspace.symm (fun w hw d hd hdc => ?_) c hmem rfl
  have hd := (hws w hw).2 d hd
  rw [hdc, hc] at hd
  cases hd

/-! ## Lines -/

/-- The text of lines, each with its line feed. -/
def unlines (ls : List (List Char)) : List Char := (ls.map (· ++ ['\n'])).flatten

theorem unlines_append (ls ls' : List (List Char)) :
    unlines (ls ++ ls') = unlines ls ++ unlines ls' := by
  simp [unlines]

/-- A line without the carriage return at its end, if it has one. -/
def dropReturn : List Char → List Char
  | [] => []
  | ['\r'] => []
  | c :: cs => c :: dropReturn cs

theorem dropReturn_of_notMem {l : List Char} (h : '\r' ∉ l) : dropReturn l = l := by
  fun_induction dropReturn l with
  | case1 => rfl
  | case2 => exact absurd List.mem_cons_self h
  | case3 c cs _ ih => rw [ih fun hcs => h (List.mem_cons_of_mem _ hcs)]

theorem words_dropReturn (l : List Char) : words (dropReturn l) = words l := by
  fun_induction dropReturn l with
  | case1 => rfl
  | case2 => rfl
  | case3 c cs hne ih =>
    cases cs with
    | nil => rfl
    | cons d cs =>
      cases hcs : dropReturn (d :: cs) with
      | nil =>
        -- the only line that becomes empty is a carriage return
        have hd : d = '\r' ∧ cs = [] := by
          unfold dropReturn at hcs
          split at hcs <;> simp_all
        obtain ⟨rfl, rfl⟩ := hd
        simp [words, isBlank]
      | cons e es =>
        have he : e = d := by
          unfold dropReturn at hcs
          split at hcs <;> simp_all
        subst he
        rw [hcs] at ih
        simp only [words] at ih ⊢
        simp [ih]

/-- A line ends at the first line feed. -/
theorem dropReturns_line {l : List Char} (h : '\n' ∉ l) (rest : List Char) :
    dropReturns (l ++ '\n' :: rest) = dropReturn l ++ '\n' :: dropReturns rest := by
  fun_induction dropReturn l with
  | case1 => simp [dropReturns]
  | case2 => simp [dropReturns]
  | case3 c cs hne ih =>
    obtain ⟨hc, hcs⟩ := not_or.1 fun hor => h (List.mem_cons.2 hor)
    rw [List.cons_append, List.cons_append, ← ih hcs]
    cases cs with
    | nil =>
      have hr : c ≠ '\r' := fun hr => hne hr rfl
      simp [dropReturns, hr]
    | cons d cs =>
      have hd : d ≠ '\n' := fun hd => hcs (hd ▸ List.mem_cons_self)
      rw [List.cons_append, dropReturns]
      intro cs' _ heq
      exact hd (List.cons.inj heq).1

theorem splitLines_line {l : List Char} (h : '\n' ∉ l) (rest : List Char) :
    splitLines (l ++ '\n' :: rest) = l :: splitLines rest := by
  induction l with
  | nil => simp [splitLines]
  | cons c l ih =>
    obtain ⟨hc, hl⟩ := not_or.1 fun hor => h (List.mem_cons.2 hor)
    rw [List.cons_append, splitLines, if_neg (Ne.symm hc), ih hl]

theorem notMem_dropReturn {l : List Char} (h : '\n' ∉ l) : '\n' ∉ dropReturn l := by
  fun_induction dropReturn l with
  | case1 => exact h
  | case2 => simp
  | case3 c cs _ ih =>
    obtain ⟨hc, hcs⟩ := not_or.1 fun hor => h (List.mem_cons.2 hor)
    exact fun hmem => (List.mem_cons.1 hmem).elim hc (ih hcs)

/-- The lines of a text made of lines. -/
theorem lines_unlines {ls : List (List Char)} (h : ∀ l ∈ ls, '\n' ∉ l) :
    lines (unlines ls) = ls.map dropReturn := by
  induction ls with
  | nil => rfl
  | cons l ls ih =>
    obtain ⟨hl, hls⟩ := List.forall_mem_cons.1 h
    have hsplit : unlines (l :: ls) = l ++ '\n' :: unlines ls := by simp [unlines]
    rw [hsplit, lines, dropReturns_line hl, splitLines_line (notMem_dropReturn hl), List.map_cons,
      ← ih hls, lines]

theorem count_unlines {ls : List (List Char)} (h : ∀ l ∈ ls, '\n' ∉ l) :
    (unlines ls).count '\n' = ls.length := by
  induction ls with
  | nil => rfl
  | cons l ls ih =>
    obtain ⟨hl, hls⟩ := List.forall_mem_cons.1 h
    have hsplit : unlines (l :: ls) = l ++ '\n' :: unlines ls := by simp [unlines]
    rw [hsplit, List.count_append, List.count_eq_zero_of_not_mem hl, List.count_cons_self, ih hls,
      List.length_cons]
    omega

end Text

open Text

/-! ## Printing -/

/-- The word of a class line that names a shape. -/
def ClassShape.word : ClassShape → String
  | .fixed => "SUBCLASSOF"
  | .indexed => "VARSUBCLASSOF"
  | .bytes => "VARBYTESUBCLASSOF"
  | .words => "VARWORDSUBCLASSOF"

/-- The words of a class line. -/
def ClassDefinition.words (d : ClassDefinition) : List String :=
  "CLASS" :: d.name :: d.shape.word :: d.superclass.getD "nil" ::
    if d.variableNames.isEmpty then [] else "VARS" :: d.variableNames

def ClassDefinition.printed (d : ClassDefinition) : List Char := unlines [unwords d.words]

namespace MethodSection

/-- The line that opens a section. -/
def header (s : MethodSection) : List Char :=
  unlines [unwords [if s.classSide then "CLASSMETHODS" else "METHODS", s.className]]

/-- What stands before the method number `k` of a section. -/
def before (s : MethodSection) (k : Nat) : List Char :=
  s.header ++ ((s.methods.take k).map fun method => method.text.toList ++ ['|', '\n']).flatten

def printed (s : MethodSection) : List Char :=
  s.header ++ ['|', '\n'].intercalate (s.methods.map (·.text.toList)) ++ [']', '\n']

end MethodSection

namespace ClassFile

/-- What a class file has on its top level. -/
inductive Item where
  | cls (d : ClassDefinition)
  | section (s : MethodSection)

def Item.printed : Item → List Char
  | .cls d => d.printed
  | .section s => s.printed

/-- The items of a class file in the order in which they are printed. -/
def items (file : ClassFile) : List Item := file.classes.map .cls ++ file.sections.map .section

/-- The text before the item number `i`; `gaps i` are the lines between that item and the one
before. -/
def textBefore (gaps : Nat → List (List Char)) (items : List Item) : Nat → List Char
  | 0 => unlines (gaps 0)
  | i + 1 => textBefore gaps items i ++ (items[i]?.elim [] Item.printed) ++ unlines (gaps (i + 1))

/-- The text of a class file. -/
def printed (file : ClassFile) (gaps : Nat → List (List Char)) : List Char :=
  textBefore gaps file.items file.items.length

end ClassFile

/-! ## Numbers of lines -/

/-- The number of the line that comes behind a piece of text. -/
def lineBehind (text : List Char) : Nat := text.count '\n' + 1

/-- The definition where it stands. -/
def ClassDefinition.located (text : List Char) (d : ClassDefinition) : ClassDefinition :=
  { d with line := lineBehind text }

/-- The section and its methods where they stand. -/
def MethodSection.located (text : List Char) (s : MethodSection) : MethodSection :=
  { s with
    line := lineBehind text
    methods := s.methods.mapIdx fun k method =>
      { method with line := lineBehind (text ++ s.before k) } }

namespace ClassFile

def Item.located (text : List Char) : Item → Item
  | .cls d => .cls (d.located text)
  | .section s => .section (s.located text)

/-- A class file with the numbers of the lines on which it was printed. -/
def located (file : ClassFile) (gaps : Nat → List (List Char)) : ClassFile where
  classes := file.classes.mapIdx fun i d => d.located (textBefore gaps file.items i)
  sections := file.sections.mapIdx fun j s =>
    s.located (textBefore gaps file.items (file.classes.length + j))

/-! ## What can be printed -/

/-- A line that means nothing: it is blank, or its first word starts with an asterisk. -/
def IsFiller (l : List Char) : Prop :=
  '\n' ∉ l ∧ ∀ w ∈ (Text.words l).head?, w.head? = some '*'

instance (l : List Char) : Decidable (IsFiller l) := inferInstanceAs (Decidable (_ ∧ _))

/-- A line that may stand in a method. -/
def IsMethodLine (l : List Char) : Prop :=
  '\n' ∉ l ∧ '\r' ∉ l ∧ trim l ≠ ['|'] ∧ trim l ≠ [']']

instance (l : List Char) : Decidable (IsMethodLine l) := inferInstanceAs (Decidable (_ ∧ _))

/-- Lines that may stand in a method, the first of them not blank. -/
def IsMethodText (text : String) : Prop :=
  ∃ first more, text.toList = unlines (first :: more) ∧ trim first ≠ [] ∧
    ∀ l ∈ first :: more, IsMethodLine l

/-- Names are words, no superclass is called nil, and methods are made of such lines. -/
structure Printable (file : ClassFile) : Prop where
  classes : ∀ d ∈ file.classes, (∀ w ∈ d.name :: d.variableNames, IsWord w) ∧
    ∀ w ∈ d.superclass, IsWord w ∧ w ≠ "nil"
  sections : ∀ s ∈ file.sections, IsWord s.className ∧ ∀ method ∈ s.methods,
    IsMethodText method.text

/-! ## Taking lines -/

/-- The reader, having read `p`, takes the lines of a text from number `n` on and has then read
`q`. -/
def Takes (p : Progress) (n : Nat) (text : List Char) (q : Progress) : Prop :=
  ∃ ls, text = unlines ls ∧ (∀ l ∈ ls, '\n' ∉ l) ∧ p.takeAll n (ls.map dropReturn) = .ok q

theorem takeAll_append (p : Progress) (n : Nat) (ls ls' : List (List Char)) :
    p.takeAll n (ls ++ ls') = p.takeAll n ls >>= fun q => q.takeAll (n + ls.length) ls' := by
  induction ls generalizing p n with
  | nil => rfl
  | cons l ls ih =>
    rw [List.cons_append, Progress.takeAll, Progress.takeAll, bind_assoc]
    congr
    funext q
    rw [ih, List.length_cons, Nat.add_right_comm, Nat.add_assoc]

section Takes

variable {p q r : Progress} {n : Nat} {text text' : List Char}

theorem Takes.append (h : Takes p n text q) (h' : Takes q (n + text.count '\n') text' r) :
    Takes p n (text ++ text') r := by
  obtain ⟨ls, rfl, hls, htake⟩ := h
  obtain ⟨ls', rfl, hls', htake'⟩ := h'
  refine ⟨ls ++ ls', (unlines_append ls ls').symm, ?_, ?_⟩
  · exact fun l hl => (List.mem_append.1 hl).elim (hls l) (hls' l)
  · rw [List.map_append, takeAll_append, htake, List.length_map]
    rwa [count_unlines hls] at htake'

theorem Takes.line {l : List Char} (hl : '\n' ∉ l) (h : p.take n (dropReturn l) = .ok q) :
    Takes p n (unlines [l]) q := by
  refine ⟨[l], rfl, by simpa using hl, ?_⟩
  simp only [List.map_cons, List.map_nil, Progress.takeAll, h]
  rfl

/-- A text that is taken whole is a class file. -/
theorem Takes.ofText {file : ClassFile} (h : Takes .empty 1 text ⟨file, none⟩) :
    ofText (String.ofList text) = .ok file := by
  obtain ⟨ls, rfl, hls, htake⟩ := h
  rw [ClassFile.ofText, String.toList_ofList, lines_unlines hls, htake]
  rfl

end Takes

variable {file : ClassFile} {n : Nat}

/-- Lines that mean nothing are passed over. -/
theorem takes_fillers {gap : List (List Char)} (h : ∀ l ∈ gap, IsFiller l) :
    Takes ⟨file, none⟩ n (unlines gap) ⟨file, none⟩ := by
  refine ⟨gap, rfl, fun l hl => (h l hl).1, ?_⟩
  induction gap generalizing n with
  | nil => rfl
  | cons l gap ih =>
    obtain ⟨⟨-, hl⟩, hgap⟩ := List.forall_mem_cons.1 h
    have htake : Progress.take ⟨file, none⟩ n (dropReturn l) = .ok ⟨file, none⟩ := by
      rw [Progress.take, words_dropReturn]
      cases hwords : Text.words l with
      | nil => rfl
      | cons w ws =>
        rw [hwords] at hl
        obtain ⟨more, rfl⟩ := List.head?_eq_some_iff.1 (hl w rfl)
        exact if_pos (by simp [String.startsWith_string_iff])
    rw [List.map_cons, Progress.takeAll, htake]
    exact ih hgap

theorem shape_word (shape : ClassShape) : ClassShape.ofWord? shape.word = some shape := by
  cases shape <;> decide

/-- A line made of words outside of a section. -/
theorem takes_words {ws : List String} {q : Progress} (hws : ∀ w ∈ ws, IsWord w)
    (h : Progress.takeOutside file n ws = .ok q) :
    Takes ⟨file, none⟩ n (unlines [unwords ws]) q := by
  refine .line (notMem_unwords hws rfl (by decide)) ?_
  rw [dropReturn_of_notMem (notMem_unwords hws rfl (by decide)), Progress.take]
  show Progress.takeOutside file n ((Text.words (unwords ws)).map String.ofList) = .ok q
  rw [words_unwords hws, h]

theorem takes_class {d : ClassDefinition} (hnames : ∀ w ∈ d.name :: d.variableNames, IsWord w)
    (hsuper : ∀ w ∈ d.superclass, IsWord w ∧ w ≠ "nil") :
    Takes ⟨file, none⟩ n d.printed
      ⟨{ file with classes := file.classes ++ [{ d with line := n }] }, none⟩ := by
  obtain ⟨hname, hvariables⟩ := List.forall_mem_cons.1 hnames
  have hkind : IsWord d.shape.word := by
    cases d.shape <;> decide
  have habove : IsWord (d.superclass.getD "nil") := by
    cases hsup : d.superclass with
    | none => exact (by decide : IsWord "nil")
    | some w => exact (hsuper w hsup).1
  refine takes_words ?_ ?_
  · rw [ClassDefinition.words]
    simp only [List.forall_mem_cons]
    refine ⟨by decide, hname, hkind, habove, ?_⟩
    split
    · exact List.forall_mem_nil _
    · exact List.forall_mem_cons.2 ⟨by decide, hvariables⟩
  · have hroot : (if d.superclass.getD "nil" = "nil" then none
        else some (d.superclass.getD "nil")) = d.superclass := by
      cases hsup : d.superclass with
      | none => rfl
      | some w => exact if_neg (hsuper w hsup).2
    have hline : Progress.classLine n d.words = .ok { d with line := n } := by
      rw [ClassDefinition.words, Progress.classLine, shape_word]
      dsimp only
      rw [hroot]
      cases hvariables' : d.variableNames with
      | nil => rfl
      | cons v vs => exact if_pos (c := "VARS" = "VARS") rfl
    refine ((if_neg (by simp)).trans (if_pos rfl)).trans ?_
    show (Progress.classLine n d.words >>= fun definition =>
      pure (⟨{ file with classes := file.classes ++ [definition] }, none⟩ : Progress)) = _
    rw [hline]
    rfl

section Sections

variable {sec : MethodSection} {start : Nat}

/-- A line of a method behind its first one. -/
theorem take_more {l : List Char} (hl : IsMethodLine l) {text : String}
    (htext : text.isEmpty = false) : Progress.take ⟨file, some ⟨sec, text, start⟩⟩ n l =
      .ok ⟨file, some ⟨sec, text ++ String.ofList l ++ "\n", start⟩⟩ := by
  obtain ⟨-, -, hbar, hbracket⟩ := hl
  show Except.ok (Progress.takeInside _ _ _ _) = _
  rw [Progress.takeInside, if_neg hbracket, if_neg hbar, htext]
  rfl

/-- The first line of a method. -/
theorem take_first {l : List Char} (hl : IsMethodLine l) (hblank : trim l ≠ []) :
    Progress.take ⟨file, some ⟨sec, "", start⟩⟩ n l =
      .ok ⟨file, some ⟨sec, String.ofList l ++ "\n", start⟩⟩ := by
  obtain ⟨-, -, hbar, hbracket⟩ := hl
  have hblank' : (trim l).isEmpty = false := by simpa using hblank
  show Except.ok (Progress.takeInside _ _ _ _) = _
  rw [Progress.takeInside, if_neg hbracket, if_neg hbar, hblank']
  simp

theorem takeAll_more {ls : List (List Char)} (hls : ∀ l ∈ ls, IsMethodLine l) {text : String}
    (htext : text.isEmpty = false) :
    Progress.takeAll ⟨file, some ⟨sec, text, start⟩⟩ n ls =
      .ok ⟨file, some ⟨sec, text ++ String.ofList (unlines ls), start⟩⟩ := by
  induction ls generalizing n text with
  | nil => simp [Progress.takeAll, unlines]
  | cons l ls ih =>
    obtain ⟨hl, hls⟩ := List.forall_mem_cons.1 hls
    rw [Progress.takeAll, take_more hl htext]
    refine (ih hls (by simp)).trans ?_
    simp [unlines, String.append_assoc]

theorem takes_method {text : String} (h : IsMethodText text) :
    Takes ⟨file, some ⟨sec, "", start⟩⟩ n text.toList ⟨file, some ⟨sec, text, start⟩⟩ := by
  obtain ⟨first, more, htext, hblank, hlines⟩ := h
  have hsame : (first :: more).map dropReturn = first :: more :=
    (List.map_congr_left fun l hl => dropReturn_of_notMem (hlines l hl).2.1).trans (List.map_id _)
  refine ⟨first :: more, htext, fun l hl => (hlines l hl).1, ?_⟩
  obtain ⟨hfirst, hmore⟩ := List.forall_mem_cons.1 hlines
  have hwhole : text = String.ofList first ++ "\n" ++ String.ofList (unlines more) := by
    rw [← String.ofList_toList (s := text), htext]
    simp [unlines, String.append_assoc]
  rw [hsame, Progress.takeAll, take_first hfirst hblank, hwhole]
  exact takeAll_more hmore (by simp)

theorem finish_of_text {text : String} (htext : text.isEmpty = false) :
    OpenSection.finish ⟨sec, text, start⟩ =
      { sec with methods := sec.methods ++ [⟨text, start⟩] } := by
  rw [OpenSection.finish, htext]
  rfl

theorem takes_bar {text : String} (htext : text.isEmpty = false) :
    Takes ⟨file, some ⟨sec, text, start⟩⟩ n ['|', '\n']
      ⟨file, some ⟨{ sec with methods := sec.methods ++ [⟨text, start⟩] }, "", n + 1⟩⟩ := by
  rw [← finish_of_text htext]
  exact Takes.line (l := ['|']) (by decide) rfl

theorem takes_bracket (s : OpenSection) :
    Takes ⟨file, some s⟩ n [']', '\n']
      ⟨{ file with sections := file.sections ++ [s.finish] }, none⟩ :=
  Takes.line (l := [']']) (by decide) rfl

theorem IsMethodText.isEmpty {text : String} (h : IsMethodText text) : text.isEmpty = false := by
  obtain ⟨first, more, htext, -⟩ := h
  by_contra hempty
  obtain rfl : text = "" := by simpa using hempty
  simp [unlines] at htext

theorem lineBehind_append (text text' : List Char) :
    lineBehind (text ++ text') = lineBehind text + text'.count '\n' := by
  rw [lineBehind, lineBehind, List.count_append]
  omega

/-- The methods of a section behind a piece of text, through the closing bracket. -/
theorem takes_methods (text : List Char) {methods : List MethodSource}
    (h : ∀ method ∈ methods, IsMethodText method.text) :
    Takes ⟨file, some ⟨sec, "", lineBehind text⟩⟩ (lineBehind text)
      (['|', '\n'].intercalate (methods.map (·.text.toList)) ++ [']', '\n'])
      ⟨{ file with sections := file.sections ++ [{ sec with
          methods := sec.methods ++ methods.mapIdx fun k method => { method with
            line := lineBehind (text ++
              ((methods.take k).map fun method =>
                method.text.toList ++ ['|', '\n']).flatten) } }] },
        none⟩ := by
  induction methods generalizing sec text with
  | nil =>
    have hclosed : Takes ⟨file, some ⟨sec, "", lineBehind text⟩⟩ (lineBehind text) _ _ :=
      takes_bracket _
    simpa [OpenSection.finish, List.intercalate] using hclosed
  | cons method methods ih =>
    obtain ⟨hmethod, hmethods⟩ := List.forall_mem_cons.1 h
    have htext := hmethod.isEmpty
    have hfirst : Takes ⟨file, some ⟨sec, "", lineBehind text⟩⟩ (lineBehind text) _ _ :=
      takes_method hmethod
    cases methods with
    | nil =>
      have hclosed := hfirst.append (takes_bracket _)
      rw [finish_of_text htext] at hclosed
      simpa [List.intercalate] using hclosed
    | cons next more =>
      have hline : lineBehind (text ++ (method.text.toList ++ ['|', '\n'])) =
          lineBehind text + method.text.toList.count '\n' + 1 := by
        simp [lineBehind_append, Nat.add_assoc]
      have hnext := @ih { sec with methods := sec.methods ++ [⟨method.text, lineBehind text⟩] }
        (text ++ (method.text.toList ++ ['|', '\n'])) hmethods
      rw [hline] at hnext
      have hrest := hfirst.append ((takes_bar htext).append hnext)
      simpa [List.intercalate, List.mapIdx_cons] using hrest

end Sections

theorem count_words (ws : List String) (hws : ∀ w ∈ ws, IsWord w) :
    (unlines [unwords ws]).count '\n' = 1 :=
  count_unlines (List.forall_mem_singleton.2 (notMem_unwords hws rfl (by decide)))

theorem takes_section {s : MethodSection} (text : List Char) (hname : IsWord s.className)
    (hmethods : ∀ method ∈ s.methods, IsMethodText method.text) :
    Takes ⟨file, none⟩ (lineBehind text) s.printed
      ⟨{ file with sections := file.sections ++ [s.located text] }, none⟩ := by
  have hwords : ∀ w ∈ [if s.classSide then "CLASSMETHODS" else "METHODS", s.className],
      IsWord w := by
    simp only [List.forall_mem_cons]
    refine ⟨?_, hname, List.forall_mem_nil _⟩
    split <;> decide
  have hline : lineBehind (text ++ s.header) = lineBehind text + 1 := by
    rw [lineBehind_append, MethodSection.header, count_words _ hwords]
  have hheader : Takes ⟨file, none⟩ (lineBehind text) s.header
      ⟨file, some ⟨⟨s.className, s.classSide, [], lineBehind text⟩, "",
        lineBehind (text ++ s.header)⟩⟩ := by
    rw [hline]
    refine takes_words hwords ?_
    cases s.classSide <;> simp [Progress.takeOutside, String.startsWith_string_iff]
  have hrest := @takes_methods file ⟨s.className, s.classSide, [], lineBehind text⟩
    (text ++ s.header) _ hmethods
  rw [lineBehind_append] at hrest hheader
  have hall := hheader.append hrest
  simpa [MethodSection.printed, MethodSection.located, MethodSection.before] using hall

/-! ## Reading what was printed -/

/-- A class file with another item at its end. -/
def add (file : ClassFile) : Item → ClassFile
  | .cls d => { file with classes := file.classes ++ [d] }
  | .section s => { file with sections := file.sections ++ [s] }

theorem Printable.takes_item (h : file.Printable) {item : Item} (hitem : item ∈ file.items)
    (read : ClassFile) (text : List Char) :
    Takes ⟨read, none⟩ (lineBehind text) item.printed ⟨read.add (item.located text), none⟩ := by
  rcases List.mem_append.1 hitem with hitem | hitem
  · obtain ⟨d, hd, rfl⟩ := List.mem_map.1 hitem
    obtain ⟨hwords, hsuper⟩ := h.classes d hd
    exact takes_class hwords hsuper
  · obtain ⟨s, hs, rfl⟩ := List.mem_map.1 hitem
    exact takes_section text (h.sections s hs).1 (h.sections s hs).2

/-- The reader has taken the text before an item: it holds the items before, where they stand. -/
theorem Printable.takes_textBefore (h : file.Printable) {gaps : Nat → List (List Char)}
    (hgaps : ∀ i, ∀ l ∈ gaps i, IsFiller l) {i : Nat} (hi : i ≤ file.items.length) :
    Takes .empty 1 (textBefore gaps file.items i)
      ⟨((file.items.take i).mapIdx fun k item =>
        item.located (textBefore gaps file.items k)).foldl add ⟨[], []⟩, none⟩ := by
  induction i with
  | zero => exact takes_fillers (hgaps 0)
  | succ i ih =>
    have hitem : file.items[i]? = some file.items[i] := List.getElem?_eq_getElem hi
    have hnext := h.takes_item (List.getElem_mem hi)
      (((file.items.take i).mapIdx fun k item => item.located (textBefore gaps file.items k)).foldl
        add ⟨[], []⟩)
      (textBefore gaps file.items i)
    rw [lineBehind, Nat.add_comm] at hnext
    have htaken := ((ih (Nat.le_of_succ_le hi)).append hnext).append (takes_fillers (hgaps (i + 1)))
    rw [textBefore, hitem, List.take_add_one, hitem, Option.toList_some, List.mapIdx_append,
      List.foldl_append, List.length_take, Nat.min_eq_left (Nat.le_of_succ_le hi)]
    simpa using htaken

theorem foldl_add_classes (file : ClassFile) (classes : List ClassDefinition) :
    (classes.map Item.cls).foldl add file = { file with classes := file.classes ++ classes } := by
  induction classes generalizing file with
  | nil => simp
  | cons d classes ih => simp [ih, add]

theorem foldl_add_sections (file : ClassFile) (sections : List MethodSection) :
    (sections.map Item.section).foldl add file =
      { file with sections := file.sections ++ sections } := by
  induction sections generalizing file with
  | nil => simp
  | cons s sections ih => simp [ih, add]

theorem foldl_add_items (file : ClassFile) (gaps : Nat → List (List Char)) :
    (file.items.mapIdx fun k item => item.located (textBefore gaps file.items k)).foldl add
      ⟨[], []⟩ = file.located gaps := by
  have hsplit : (file.items.mapIdx fun k item => item.located (textBefore gaps file.items k)) =
      (file.located gaps).classes.map .cls ++ (file.located gaps).sections.map .section := by
    refine List.ext_getElem? fun k => ?_
    rcases Nat.lt_or_ge k file.classes.length with hk | hk
    · simp [items, located, List.getElem?_append_left, hk, Item.located]
    · simp [items, located, List.getElem?_append_right, hk, Item.located]
      rfl
  rw [hsplit, List.foldl_append, foldl_add_classes, foldl_add_sections]
  rfl

/-! ### Where items and methods stand -/

theorem textBefore_isPrefix (gaps : Nat → List (List Char)) (items : List Item) {i j : Nat}
    (h : i ≤ j) : textBefore gaps items i <+: textBefore gaps items j := by
  induction h with
  | refl => exact List.prefix_rfl
  | step _ ih =>
    rw [textBefore, List.append_assoc]
    exact ih.trans (List.prefix_append _ _)

theorem item_isPrefix (gaps : Nat → List (List Char)) {i : Nat} {item : Item}
    (h : file.items[i]? = some item) :
    textBefore gaps file.items i ++ item.printed <+: file.printed gaps := by
  obtain ⟨hi, -⟩ := List.getElem?_eq_some_iff.1 h
  refine List.IsPrefix.trans ?_ (textBefore_isPrefix gaps file.items hi)
  rw [textBefore, h]
  exact List.prefix_append _ _

theorem method_isPrefix {s : MethodSection} {k : Nat} {method : MethodSource}
    (h : s.methods[k]? = some method) : s.before k ++ method.text.toList <+: s.printed := by
  rw [MethodSection.before, MethodSection.printed, List.append_assoc, List.append_assoc,
    List.prefix_append_right_inj]
  generalize s.methods = methods at h
  refine List.IsPrefix.trans ?_ (List.prefix_append _ _)
  induction methods generalizing k with
  | nil => simp at h
  | cons first more ih =>
    cases k with
    | zero =>
      obtain rfl : first = method := by simpa using h
      cases more <;> simp [List.intercalate]
    | succ k =>
      cases more with
      | nil => simp at h
      | cons next more =>
        have hnext := ih (k := k) (by simpa using h)
        simpa [List.intercalate] using hnext

/-- A class file reads back from its text, each class, section and method with the number of the
line on which it starts, whatever comments and blank lines stand between the classes and
sections. -/
theorem class_files_round_trip (file : ClassFile) (gaps : Nat → List (List Char))
    (h : file.Printable) (hgaps : ∀ i, ∀ l ∈ gaps i, IsFiller l) :
    ofText (String.ofList (file.printed gaps)) = .ok (file.located gaps) ∧
    (∀ i item, file.items[i]? = some item →
      textBefore gaps file.items i ++ item.printed <+: file.printed gaps) ∧
    ∀ i s, file.items[i]? = some (.section s) → ∀ k method, s.methods[k]? = some method →
      textBefore gaps file.items i ++ s.before k ++ method.text.toList <+: file.printed gaps := by
  refine ⟨?_, fun i item hitem => item_isPrefix gaps hitem, ?_⟩
  · have hall := h.takes_textBefore hgaps (Nat.le_refl file.items.length)
    rw [List.take_length, foldl_add_items] at hall
    exact hall.ofText
  · intro i s hitem k method hmethod
    refine List.IsPrefix.trans ?_ (item_isPrefix gaps hitem)
    rw [List.append_assoc, List.prefix_append_right_inj]
    exact method_isPrefix hmethod

/-- A class below `Object` and one at the root, a section of two methods and an empty one. -/
def sampleFile : ClassFile where
  classes := [⟨"Point", .fixed, some "Object", ["x", "y"], 0⟩, ⟨"Void", .bytes, none, [], 0⟩]
  sections := [⟨"Point", false, [⟨"x\n\n  ^ x\n", 0⟩, ⟨"y\n", 0⟩], 0⟩, ⟨"Void", true, [], 0⟩]

/-- A comment and a blank line before the second class. -/
def sampleGaps (i : Nat) : List (List Char) :=
  if i = 1 then ["  * note".toList, " \r".toList] else []

theorem sampleFile_reads_back :
    ofText ("CLASS Point SUBCLASSOF Object VARS x y\n  * note\n \r\n" ++
        "CLASS Void VARBYTESUBCLASSOF nil\n" ++
        "METHODS Point\nx\n\n  ^ x\n|\ny\n]\nCLASSMETHODS Void\n]\n") =
      .ok ⟨[⟨"Point", .fixed, some "Object", ["x", "y"], 1⟩, ⟨"Void", .bytes, none, [], 4⟩],
        [⟨"Point", false, [⟨"x\n\n  ^ x\n", 6⟩, ⟨"y\n", 10⟩], 5⟩, ⟨"Void", true, [], 12⟩]⟩ := by
  have hx : IsMethodText "x\n\n  ^ x\n" :=
    ⟨['x'], [[], [' ', ' ', '^', ' ', 'x']], by decide, by decide, by decide⟩
  have hy : IsMethodText "y\n" := ⟨['y'], [], by decide, by decide, by decide⟩
  have hgaps : ∀ i, ∀ l ∈ sampleGaps i, IsFiller l := by
    intro i
    unfold sampleGaps
    split <;> decide
  have hread := (class_files_round_trip sampleFile sampleGaps
    ⟨by decide, by simp [sampleFile, hx, hy]; decide⟩ hgaps).1
  have hprinted : sampleFile.printed sampleGaps =
      ("CLASS Point SUBCLASSOF Object VARS x y\n  * note\n \r\n" ++
        "CLASS Void VARBYTESUBCLASSOF nil\n" ++
        "METHODS Point\nx\n\n  ^ x\n|\ny\n]\nCLASSMETHODS Void\n]\n").toList := by
    decide +kernel
  rw [hprinted, String.ofList_toList] at hread
  rw [hread]
  decide +kernel

end ClassFile

end Smalltalk
