/-!
# Options of the command line

Options are written `--name value` or `--name=value`; switches have no value.
-/

namespace Smalltalk

/-- What the command line asks for. -/
structure Options where
  /-- The image to load at the start and to save at the end. -/
  image : String := "semitalk.img"
  /-- Build a machine even if there is an image. -/
  fresh : Bool := false
  /-- Bytes per semispace. -/
  semispaceSize : Option Nat := none
  /-- Class files to load, in order. -/
  classFiles : List String := []
  /-- Expressions to evaluate, in order. -/
  expressions : List String := []
  /-- Save the image at the end. -/
  save : Bool := false
  /-- Report every instruction. -/
  trace : Bool := false
  /-- Show the instructions of the expressions instead of running them. -/
  dumpBytecode : Bool := false
deriving DecidableEq

/-- Why a command line cannot be understood. -/
inductive OptionError where
  | unknown (argument : String)
  | valueMissing (name : String)
  | notANumber (text : String)
deriving DecidableEq

namespace OptionError

/-- The reason in words. -/
def message : OptionError → String
  | .unknown argument => "unexpected argument '" ++ argument ++ "'"
  | .valueMissing name => "a value is required for '" ++ name ++ "'"
  | .notANumber text => "invalid value '" ++ text ++ "'"

end OptionError

namespace Options

/-- A number of bytes: decimal digits, with a plus sign in front or not. -/
def number? (text : String) : Option Nat :=
  let digits :=
    match text.toList with
    | '+' :: digits => digits
    | digits => digits
  if digits.isEmpty || !digits.all Char.isDigit then none
  else some (digits.foldl (fun n c => 10 * n + (c.toNat - '0'.toNat)) 0)

/-- Options that take a value. -/
def withValue? (o : Options) (name value : String) : Option (Except OptionError Options) :=
  if name = "--image" then some (.ok { o with image := value })
  else if name = "--file-in" then some (.ok { o with classFiles := o.classFiles ++ [value] })
  else if name = "--eval" then some (.ok { o with expressions := o.expressions ++ [value] })
  else if name = "--semispace-size" then
    match number? value with
    | some n => some (.ok { o with semispaceSize := some n })
    | none => some (.error (.notANumber value))
  else none

/-- Switches. -/
def withSwitch? (o : Options) (name : String) : Option Options :=
  if name = "--fresh" then some { o with fresh := true }
  else if name = "--save" then some { o with save := true }
  else if name = "--trace" then some { o with trace := true }
  else if name = "--dump-bytecode" then some { o with dumpBytecode := true }
  else none

/-- An argument cut at its first equals sign. -/
def split (argument : String) : String × Option String :=
  let cs := argument.toList
  match cs.dropWhile (· != '=') with
  | [] => (argument, none)
  | _ :: value => (String.ofList (cs.takeWhile (· != '=')), some (String.ofList value))

/-- The options of a command line, besides those given. -/
def parseFrom (o : Options) : List String → Except OptionError Options
  | [] => .ok o
  | argument :: rest =>
    match split argument with
    | (name, some value) =>
      match o.withValue? name value with
      | some (.ok o) => parseFrom o rest
      | some (.error e) => .error e
      | none => .error (.unknown argument)
    | (name, none) =>
      match o.withSwitch? name with
      | some o => parseFrom o rest
      | none =>
        match rest with
        | [] =>
          if (o.withValue? name "").isSome then .error (.valueMissing name)
          else .error (.unknown argument)
        | value :: rest =>
          match o.withValue? name value with
          | some (.ok o) => parseFrom o rest
          | some (.error e) => .error e
          | none => .error (.unknown argument)

/-- The options of a command line. -/
def parse (arguments : List String) : Except OptionError Options := parseFrom {} arguments

end Options

end Smalltalk
