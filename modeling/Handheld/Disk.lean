/-!
# Disks

A disk is known by what reading gives for each path: the bytes of a file, or
the reason why there are none.
-/

namespace Handheld

inductive ReadError where
  | missing
  | notDirectory
  | isDirectory
  | nameTooLong
  | zeroInPath
  | other (text : String)
  deriving DecidableEq, Repr

def ReadError.message : ReadError → String
  | .missing => "No such file or directory (os error 2)"
  | .notDirectory => "Not a directory (os error 20)"
  | .isDirectory => "Is a directory (os error 21)"
  | .nameTooLong => "File name too long (os error 36)"
  | .zeroInPath => "file name contained an unexpected NUL byte"
  | .other text => text

abbrev Disk := String → Except ReadError ByteArray

namespace Disk

def pathLimit : Nat := 4095

/-- Why a path leads nowhere, whatever is on the disk. A zero character in it is
found first. -/
def refusal? (path : String) : Option ReadError :=
  if path.toList.contains '\x00' then some .zeroInPath
  else if path = "" then some .missing
  else if path.utf8ByteSize > pathLimit then some .nameTooLong
  else none

def ofList (files : List (String × Except ReadError ByteArray)) : Disk := fun path =>
  (files.lookup path).getD (.error .missing)

end Disk

end Handheld
