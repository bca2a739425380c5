/-!
# Errors of the file system

What the file system answers when it cannot do what it is asked for, with the texts that users know.
-/

set_option autoImplicit false

namespace Abridge

/-- A refusal of the file system. -/
inductive DiskError where
  | notFound
  /-- The name is taken by a mount point or cannot be given to a file, such as `..`. -/
  | busy
  | alreadyExists
  | notDirectory
  | isDirectory
  | nameTooLong
  | notEmpty
  | tooManyLinks
  | inputOutput
  | fileTooLarge
  | noSpace
  | quotaExceeded
  /-- A name with a NUL character. -/
  | invalidName
  /-- The file is no text. -/
  | invalidText
  deriving DecidableEq, Repr, Inhabited

/-- The wording of a refusal. -/
def DiskError.message : DiskError → String
  | notFound => "No such file or directory (os error 2)"
  | inputOutput => "Input/output error (os error 5)"
  | busy => "Device or resource busy (os error 16)"
  | alreadyExists => "File exists (os error 17)"
  | notDirectory => "Not a directory (os error 20)"
  | isDirectory => "Is a directory (os error 21)"
  | fileTooLarge => "File too large (os error 27)"
  | noSpace => "No space left on device (os error 28)"
  | nameTooLong => "File name too long (os error 36)"
  | notEmpty => "Directory not empty (os error 39)"
  | tooManyLinks => "Too many levels of symbolic links (os error 40)"
  | quotaExceeded => "Disk quota exceeded (os error 122)"
  | invalidName => "file name contained an unexpected NUL byte"
  | invalidText => "stream did not contain valid UTF-8"

end Abridge
