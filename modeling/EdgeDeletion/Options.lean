/-
Choices of the operator of a storage node.
-/

namespace EdgeDeletion

/-- Choices of the operator. -/
structure Options where
  /-- Whether the log names the edge of a lock conflict. -/
  logConflictKeys : Bool := true
deriving DecidableEq, Inhabited

end EdgeDeletion
