/-!
# Why a file cannot be accessed
-/

namespace IspStream

/-- Why a file cannot be read or written. -/
inductive Files.Fault where
  /-- Some component of the path does not exist. -/
  | notFound
  /-- The path exists already. -/
  | alreadyExists
  /-- A component that should be a directory is a file. -/
  | notDirectory
  /-- The path is a directory. -/
  | isDirectory
  /-- A component, or the whole path, is too long. -/
  | nameTooLong
  /-- The content is not text. -/
  | invalidText
  /-- The path contains a NUL character. -/
  | nulInPath
deriving DecidableEq, Repr

/-- The reason as it is shown to the user. -/
def Files.Fault.message : Files.Fault → String
  | .notFound => "No such file or directory (os error 2)"
  | .alreadyExists => "File exists (os error 17)"
  | .notDirectory => "Not a directory (os error 20)"
  | .isDirectory => "Is a directory (os error 21)"
  | .nameTooLong => "File name too long (os error 36)"
  | .invalidText => "stream did not contain valid UTF-8"
  | .nulInPath => "file name contained an unexpected NUL byte"

end IspStream
