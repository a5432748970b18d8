/-! # Commit identifiers

A commit is named by twenty bytes that the layout never looks into: it compares names, puts
them in byte order, and takes a seed for colors from the first four bytes. -/

namespace CommitLanes

/-- The name of a commit: a hash of twenty bytes. -/
structure CommitId where
  bytes : List UInt8
  length_bytes : bytes.length = 20
  deriving DecidableEq

namespace CommitId

/-- The name that repeats one byte. -/
def repeated (byte : UInt8) : CommitId := ⟨List.replicate 20 byte, List.length_replicate⟩

instance : Inhabited CommitId := ⟨repeated 0⟩

/-- The name of the row that stands for uncommitted changes of the working tree. -/
def workTree : CommitId := repeated 0x11

/-- The name of the row that stands for staged changes. -/
def index : CommitId := repeated 0x22

/-- Whether the name belongs to no commit but to a row made up for local changes. -/
def isArtificial (id : CommitId) : Bool := id = workTree || id = index

/-! ## Order -/

/-- Names are ordered as their byte strings are. -/
instance : LT CommitId := ⟨fun a b => a.bytes < b.bytes⟩

instance : LE CommitId := ⟨fun a b => a.bytes ≤ b.bytes⟩

instance (a b : CommitId) : Decidable (a < b) := inferInstanceAs (Decidable (a.bytes < b.bytes))

instance (a b : CommitId) : Decidable (a ≤ b) := inferInstanceAs (Decidable (a.bytes ≤ b.bytes))

theorem lt_def {a b : CommitId} : a < b ↔ a.bytes < b.bytes := Iff.rfl

/-- The given names in ascending order, each once. -/
def sortDistinct (ids : List CommitId) : List CommitId :=
  ids.eraseDups.mergeSort (fun a b => decide (a ≤ b))

/-! ## Color seed -/

/-- The first four bytes, read as a number whose lowest byte comes first. -/
def seed (id : CommitId) : UInt32 :=
  (id.bytes.take 4).foldr (fun byte value => value * 256 + byte.toUInt32) 0

end CommitId

end CommitLanes
