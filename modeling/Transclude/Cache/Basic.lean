import Transclude.Host.Basic

namespace Transclude

structure SourceFile where
  location : Path
  context : Path
  text : String
  deriving DecidableEq

def SourceFile.ofText (location : Path) (text : String) : SourceFile :=
  ⟨location, location.context, text⟩

structure Journal where
  reads : List Path := []
  dependencies : List Path := []
  deriving DecidableEq

namespace Journal

def addRead (j : Journal) (location : Path) : Journal :=
  { j with reads := j.reads ++ [location] }

def addDependency (j : Journal) (location : Path) : Journal :=
  { j with dependencies := j.dependencies ++ [location] }

def readCount (j : Journal) (location : Path) : Nat := j.reads.countP (·.same location)

def append (j k : Journal) : Journal :=
  ⟨j.reads ++ k.reads, j.dependencies ++ k.dependencies⟩

end Journal

/-- The files read so far, the number of requests that found theirs among them, and the number of
reads. -/
structure Cache where
  files : List SourceFile := []
  hits : Nat := 0
  misses : Nat := 0
  journal : Journal := {}
  deriving DecidableEq

namespace Cache

def find? (c : Cache) (location : Path) : Option SourceFile :=
  c.files.find? (·.location.same location)

def hit (c : Cache) : Cache := { c with hits := c.hits + 1 }

def startRead (c : Cache) (location : Path) : Cache :=
  { c with
    misses := c.misses + 1
    journal := (c.journal.addDependency location).addRead location }

def keep (c : Cache) (file : SourceFile) : Cache := { c with files := c.files ++ [file] }

/-- The file at a location, read through the host on first use. A failed read is not kept. -/
def request (host : Host) (location : Path) (c : Cache) : Except Fault SourceFile × Cache :=
  match c.find? location with
  | some file => (.ok file, c.hit)
  | none =>
    let c := c.startRead location
    match host.read location with
    | .ok text =>
      let file := SourceFile.ofText location text
      (.ok file, c.keep file)
    | .error fault => (.error fault, c)

end Cache

end Transclude
