import ReleaseLog.Proofs.Watching.Replacement

/-!
# Batches without links

Where no link is, a batch holds the watched files that the changes since the last one reported, and
nothing else. So it does not matter what happens to other files.
-/

namespace ReleaseLog

open FileSystem

namespace Watched

variable {fs : FileSystem} {files : List Path} {w : Watcher} {s s' : Watched} {recent : List Change}
  {c : Change}

/-! ## Files in directories -/

section Touching

variable {x : Watcher} {dir : Location} {name : Bytes}

end Touching

/-- A changelog and a draft. -/
def plain : FileSystem :=
  (({} : FileSystem).make changelogPath (.file [0x61])).make draftPath (.file [0x62])

end Watched

end ReleaseLog
