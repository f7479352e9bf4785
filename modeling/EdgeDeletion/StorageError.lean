/-
Failures of the codecs and of the catalog, as they are shown to callers.

Each codec has causes of its own; all of them come down to one of three kinds and
a few words on what is wrong.
-/

namespace EdgeDeletion

/-- A failure below the level of requests. -/
inductive StorageError where
  /-- Stored bytes do not decode. -/
  | corruption (what : String)
  /-- An argument is out of range. -/
  | invalid (what : String)
  /-- Something that was named does not exist. -/
  | notFound (what : String)
deriving DecidableEq

def StorageError.message : StorageError → String
  | .corruption what => "corruption: " ++ what
  | .invalid what => "invalid argument: " ++ what
  | .notFound what => what ++ " not found"

end EdgeDeletion
