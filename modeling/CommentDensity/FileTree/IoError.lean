/-!
# CommentDensity.FileTree.IoError

Why an input or output operation fails, and how each cause is written.
-/

namespace CommentDensity

/-- Why an operation on files or on the output fails. -/
inductive IoError where
  /-- There is nothing of that name. -/
  | noSuchEntry
  /-- A directory on the way, or the thing itself, does not allow it. -/
  | permissionDenied
  /-- What should be a directory is none. -/
  | notADirectory
  /-- A directory cannot be read as a file. -/
  | isADirectory
  /-- A name or a whole path is longer than can be looked up. -/
  | nameTooLong
  /-- Following links did not come to an end. -/
  | tooManyLinks
  /-- A path with a zero byte cannot be looked up at all. -/
  | nulInPath
  /-- The content of a file is not UTF-8. -/
  | notUtf8
  /-- The output takes no more bytes. -/
  | outputFull
  deriving DecidableEq, Repr

/-- The text of a cause. -/
def IoError.message : IoError → String
  | .noSuchEntry => "No such file or directory (os error 2)"
  | .permissionDenied => "Permission denied (os error 13)"
  | .notADirectory => "Not a directory (os error 20)"
  | .isADirectory => "Is a directory (os error 21)"
  | .nameTooLong => "File name too long (os error 36)"
  | .tooManyLinks => "Too many levels of symbolic links (os error 40)"
  | .nulInPath => "file name contained an unexpected NUL byte"
  | .notUtf8 => "stream did not contain valid UTF-8"
  | .outputFull => "failed to write whole buffer"

end CommentDensity
