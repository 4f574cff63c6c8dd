import Smalltalk.Text.Blank

/-!
# Class files

A class file is text that defines classes and gives the sources of methods.

* A line whose first word starts with `*` is a comment, and a blank line means nothing.
* `CLASS name kind superclass VARS x y` defines a class. The kind says what instances hold; the
  superclass of a root class is `nil`; the names of the variables may be left out, with `VARS` or
  without it.
* `METHODS name` starts a section of methods of a class, and `CLASSMETHODS name` a section of
  methods of the class itself. Lines follow as they are: `|` on a line of its own divides two
  methods, `]` closes the section, and blank lines in front of a method do not belong to it.

Everything carries the number of the line on which it starts, counted from one.

## Main definitions

* `ClassFile.ofText`: the class file in a text
-/

namespace Smalltalk

/-- What instances of a class hold: its variables only, or after them any number of references,
bytes or words. -/
inductive ClassShape where
  | fixed
  | indexed
  | bytes
  | words
deriving DecidableEq

namespace ClassShape

/-- The shape that a word of a class line names. -/
def ofWord? (word : String) : Option ClassShape :=
  if word = "SUBCLASSOF" then some .fixed
  else if word = "VARSUBCLASSOF" then some .indexed
  else if word = "VARBYTESUBCLASSOF" then some .bytes
  else if word = "VARWORDSUBCLASSOF" then some .words
  else none

/-- The number that a class stores for its shape, a sum: four if instances have indexed elements,
two if they hold references, one if their elements are words. -/
def code : ClassShape → Nat
  | .fixed => 2
  | .indexed => 6
  | .bytes => 4
  | .words => 5

end ClassShape

/-- The definition of a class. A root class has no superclass. -/
structure ClassDefinition where
  name : String
  shape : ClassShape
  superclass : Option String
  variableNames : List String
  line : Nat
deriving DecidableEq

/-- The source of a method, every line with its line feed. -/
structure MethodSource where
  text : String
  line : Nat
deriving DecidableEq

/-- Methods of a class, or of the class itself if `classSide` is set. -/
structure MethodSection where
  className : String
  classSide : Bool
  methods : List MethodSource
  line : Nat
deriving DecidableEq

/-- The classes and the sections of a class file, each in order. -/
structure ClassFile where
  classes : List ClassDefinition
  sections : List MethodSection
deriving DecidableEq

/-- In what way a text is not a class file. -/
inductive ClassFileCause where
  | malformedClass
  | unknownKind (word : String)
  | variablesExpected (found : String)
  | oneNameExpected (keyword : String)
  | unknownLine (word : String)
  | openSection (className : String)
  | definedTwice (name : String)
deriving DecidableEq

namespace ClassFileCause

/-- The cause in words. -/
def message : ClassFileCause → String
  | .malformedClass => "expected CLASS <name> <kind> <superclass>"
  | .unknownKind word => "unknown class kind " ++ word
  | .variablesExpected found => "expected VARS, found " ++ found
  | .oneNameExpected keyword => keyword ++ " takes exactly one class name"
  | .unknownLine word => "unrecognized line starting with " ++ word
  | .openSection className => className ++ " section is not closed by ]"
  | .definedTwice name => "class " ++ name ++ " defined twice"

end ClassFileCause

/-- Where and in what way a text is not a class file. -/
structure ClassFileError where
  line : Nat
  cause : ClassFileCause
deriving DecidableEq

namespace ClassFileError

/-- The error in words. -/
def message (e : ClassFileError) : String :=
  "class file line " ++ toString e.line ++ ": " ++ e.cause.message

end ClassFileError

namespace ClassFile

/-! ### Reading -/

/-- A section that is not closed yet, with the text of its last method so far and the line on which
that text starts. -/
structure OpenSection where
  methods : MethodSection
  text : String
  start : Nat

namespace OpenSection

/-- The section with the text so far as another method, if there is any. -/
def finish (s : OpenSection) : MethodSection :=
  if s.text.isEmpty then s.methods
  else { s.methods with methods := s.methods.methods ++ [⟨s.text, s.start⟩] }

end OpenSection

/-- What has been read before a line. -/
structure Progress where
  file : ClassFile
  current? : Option OpenSection

namespace Progress

/-- Nothing has been read. -/
def empty : Progress := ⟨⟨[], []⟩, none⟩

/-- A definition from the words of its line. -/
def classLine (line : Nat) : List String → Except ClassFileError ClassDefinition
  | _ :: name :: kind :: superclass :: rest =>
    match ClassShape.ofWord? kind with
    | none => .error ⟨line, .unknownKind kind⟩
    | some shape =>
      let define (variableNames : List String) : ClassDefinition :=
        ⟨name, shape, if superclass = "nil" then none else some superclass, variableNames, line⟩
      match rest with
      | [] => .ok (define [])
      | word :: variableNames =>
        if word = "VARS" then .ok (define variableNames) else .error ⟨line, .variablesExpected word⟩
  | _ => .error ⟨line, .malformedClass⟩

/-- Takes a line outside of a section, given as its words. -/
def takeOutside (file : ClassFile) (line : Nat) (words : List String) :
    Except ClassFileError Progress :=
  match words with
  | [] => .ok ⟨file, none⟩
  | first :: more =>
    if first.startsWith "*" then .ok ⟨file, none⟩
    else if first = "CLASS" then do
      let definition ← classLine line words
      return ⟨{ file with classes := file.classes ++ [definition] }, none⟩
    else if first = "METHODS" ∨ first = "CLASSMETHODS" then
      match more with
      | [className] =>
        .ok ⟨file, some ⟨⟨className, first = "CLASSMETHODS", [], line⟩, "", line + 1⟩⟩
      | _ => .error ⟨line, .oneNameExpected first⟩
    else .error ⟨line, .unknownLine first⟩

/-- Takes a line inside a section. -/
def takeInside (file : ClassFile) (s : OpenSection) (line : Nat) (chars : List Char) : Progress :=
  let trimmed := Text.trim chars
  if trimmed = [']'] then ⟨{ file with sections := file.sections ++ [s.finish] }, none⟩
  else if trimmed = ['|'] then ⟨file, some ⟨s.finish, "", line + 1⟩⟩
  else if s.text.isEmpty && trimmed.isEmpty then ⟨file, some { s with start := line + 1 }⟩
  else ⟨file, some { s with text := s.text ++ String.ofList chars ++ "\n" }⟩

/-- Takes the line with the given number. -/
def take (p : Progress) (line : Nat) (chars : List Char) : Except ClassFileError Progress :=
  match p.current? with
  | none => takeOutside p.file line ((Text.words chars).map String.ofList)
  | some s => .ok (takeInside p.file s line chars)

/-- Takes lines that are numbered from `line` on. -/
def takeAll (p : Progress) (line : Nat) : List (List Char) → Except ClassFileError Progress
  | [] => .ok p
  | chars :: more => do (← p.take line chars).takeAll (line + 1) more

end Progress

/-- The class file in a text. -/
def ofText (text : String) : Except ClassFileError ClassFile := do
  let p ← Progress.empty.takeAll 1 (Text.lines text.toList)
  match p.current? with
  | none => return p.file
  | some s => .error ⟨s.methods.line, .openSection s.methods.className⟩

end ClassFile

end Smalltalk
