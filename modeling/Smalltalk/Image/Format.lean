import Smalltalk.Machine.Log
import Smalltalk.Memory.Basic

/-!
# The format of images

An image is a row of words, least significant byte first, and then the bytes of all objects. The
words are two magic numbers, the major and the minor version, the offset at which the objects start,
which is zero, the number of bytes they cover, the number of registers, the registers, the
instruction pointer and the operand count.

## Main definitions

* `ImageError`: why an image cannot be written or read
* `wordBytes`: the bytes of a word
* `ImageReader`: reads words off a row of bytes
* `WriteImage`: writes words and bytes one after the other
-/

namespace Smalltalk

/-- In what way the contents of an image are wrong. -/
inductive ImageFlaw where
  | unsettled
  | valueTooLarge
  | badStart
  | registerCount
  | misaligned
  | truncatedHeader
  | overlongObject
  | strayReference
deriving DecidableEq

namespace ImageFlaw

/-- The flaw in words. -/
def message : ImageFlaw → String
  | .unsettled => "live data did not settle in the lower semispace"
  | .valueTooLarge => "value does not fit the header"
  | .badStart => "arena does not start at offset 0"
  | .registerCount => "register count does not match"
  | .misaligned => "arena size is not word aligned"
  | .truncatedHeader => "truncated object header"
  | .overlongObject => "object extends past the arena"
  | .strayReference => "reference to a non-object"

end ImageFlaw

/-- Why a machine cannot be saved now. -/
inductive BusyReason where
  | heldValues
  | compiling
deriving DecidableEq

namespace BusyReason

/-- The reason in words. -/
def message : BusyReason → String
  | .heldValues => "values are held on the scratch stack"
  | .compiling => "a method is being compiled"

end BusyReason

/-- What the file system answered. -/
inductive FileError where
  /-- There are fewer bytes than were asked for. -/
  | tooShort
  | notFound
  /-- A name in the middle of a path is not that of a directory. -/
  | notDirectory
  | isDirectory
  | nameTooLong
  | notText
deriving DecidableEq

namespace FileError

/-- The answer in words. -/
def message : FileError → String
  | .tooShort => "failed to fill whole buffer"
  | .notFound => "No such file or directory (os error 2)"
  | .notDirectory => "Not a directory (os error 20)"
  | .isDirectory => "Is a directory (os error 21)"
  | .nameTooLong => "File name too long (os error 36)"
  | .notText => "stream did not contain valid UTF-8"

end FileError

/-- Why an image could not be written or read. -/
inductive ImageError where
  | file (e : FileError)
  | badMagic
  | wrongVersion (found : UInt32)
  | tooLarge (size capacity : Nat)
  | corrupt (flaw : ImageFlaw)
  | busy (reason : BusyReason)
  | settings (e : SettingsError)
  | machine (fault : Fault)
deriving DecidableEq

namespace Image

/-- The first word of an image. -/
def magic₁ : UInt32 := 0x37A2F90B

/-- The second word of an image. -/
def magic₂ : UInt32 := 0x1E84C56D

/-- Images of another major version are refused. -/
def majorVersion : UInt32 := 0

/-- Images of another minor version are read. -/
def minorVersion : UInt32 := 2

end Image

namespace ImageError

/-- The error in words. -/
def message : ImageError → String
  | .file e => "image i/o failed: " ++ e.message
  | .badMagic => "not an image file (bad magic)"
  | .wrongVersion found =>
    "image major version " ++ toString found.toNat ++ " does not match "
      ++ toString Image.majorVersion.toNat
  | .tooLarge size capacity =>
    "image holds " ++ toString size ++ " bytes, semispace holds " ++ toString capacity
  | .corrupt flaw => "corrupt image: " ++ flaw.message
  | .busy reason => "cannot save image: " ++ reason.message
  | .settings e => "invalid memory settings: " ++ e.message
  | .machine fault => fault.message

end ImageError

/-- The bytes of a word, the least significant first. -/
def wordBytes (w : UInt32) : List UInt8 :=
  [w.toUInt8, (w >>> 8).toUInt8, (w >>> 16).toUInt8, (w >>> 24).toUInt8]

/-! ### Writing -/

/-- Effects of writing an image. The state is what has been written so far, which is not taken back
by an error. -/
abbrev WriteImage := EStateM ImageError (List UInt8)

namespace WriteImage

/-- Writes bytes. -/
def putBytes (bytes : List UInt8) : WriteImage Unit := modify (· ++ bytes)

/-- Writes words. -/
def putWords (words : List UInt32) : WriteImage Unit := putBytes (words.flatMap wordBytes)

/-- Writes a number as a word. -/
def putNumber (n : Nat) : WriteImage Unit :=
  if n < 4294967296 then putWords [UInt32.ofNat n] else throw (.corrupt .valueTooLarge)

end WriteImage

/-! ### Reading -/

/-- An image that is being read. -/
structure ImageReader where
  /-- The bytes that have not been read. -/
  rest : List UInt8
  /-- What there was to report. -/
  events : List Event := []

/-- Effects of reading an image. What was reported survives an error. -/
abbrev ReadImage := EStateM ImageError ImageReader

namespace ImageReader

/-- Reads a word. -/
def nextWord : ReadImage UInt32 := fun r =>
  match r.rest with
  | a :: b :: c :: d :: rest =>
    .ok (a.toUInt32 + (b.toUInt32 <<< 8) + (c.toUInt32 <<< 16) + (d.toUInt32 <<< 24))
      { r with rest }
  | _ => .error (.file .tooShort) r

/-- Reads so many words. -/
def nextWords : Nat → ReadImage (List UInt32)
  | 0 => return []
  | n + 1 => do
    let w ← nextWord
    return w :: (← nextWords n)

/-- Reads so many bytes. -/
def nextBytes (n : Nat) : ReadImage (List UInt8) := fun r =>
  if r.rest.length < n then .error (.file .tooShort) r
  else .ok (r.rest.take n) { r with rest := r.rest.drop n }

/-- Reports an event. -/
def note (event : Event) : ReadImage Unit :=
  modify fun r => { r with events := r.events ++ [event] }

end ImageReader

end Smalltalk
