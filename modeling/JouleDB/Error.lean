/-!
# Storage errors

The errors that the storage layers return, with the texts the code puts into them.
-/

namespace JouleDB

/-- Errors of the page store, the log and the engine on top of them. -/
inductive StorageError where
  /-- A backend operation failed. -/
  | backend (message : String)
  /-- A page cannot be interpreted. -/
  | corrupted (pageId : Nat) (reason : String)
  /-- A page does not fit the page size. -/
  | pageSizeExceeded (max actual : Nat)
  deriving DecidableEq, Repr

end JouleDB
