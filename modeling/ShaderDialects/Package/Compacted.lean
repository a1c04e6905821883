import ShaderDialects.Package.Normal
import ShaderDialects.Version.Basic

namespace ShaderDialects.Package

variable {H : Type} [DecidableEq H]

structure Compacted (H : Type) where
  /-- The distinct normal texts, in the order of their first occurrence. -/
  blobs : List (H × List String) := []
  /-- The text of every version, in the order the versions were given. -/
  versions : List (Version × H) := []

inductive CompactError where
  | read (error : Text.ReadError)
  | repeatedVersion (sources versions : Nat)

def CompactError.message : CompactError → String
  | read e => e.message
  | repeatedVersion n m =>
      "internal error: entered unreachable code: compacted " ++ toString n
        ++ " sources but mapped only " ++ toString m ++ " versions"

def joinLines (lines : List String) : String := String.join (lines.map (· ++ "\n"))

/-- Sets the value of a key, at the place it has or else at the end. -/
def setEntry {K V : Type} [DecidableEq K] (key : K) (value : V) : List (K × V) → List (K × V)
  | [] => [(key, value)]
  | entry :: entries =>
      if entry.1 = key then (key, value) :: entries else entry :: setEntry key value entries

namespace Compacted

def insert (hash : ByteArray → H) (c : Compacted H) (v : Version) (lines : List String) :
    Compacted H :=
  let h := hash (joinLines lines).toUTF8
  { blobs := if (c.blobs.lookup h).isSome then c.blobs else c.blobs ++ [(h, lines)]
    versions := setEntry v h c.versions }

def insertAll (hash : ByteArray → H) (c : Compacted H) :
    List (Version × Text.Source) → Except Text.ReadError (Compacted H)
  | [] => .ok c
  | (v, source) :: sources => do
      let lines ← normalize source
      insertAll hash (c.insert hash v lines) sources

/-- Compacts the sources of versions, each of which is to be given once. -/
def ofSources (hash : ByteArray → H) (sources : List (Version × Text.Source)) :
    Except CompactError (Compacted H) := do
  let c ← (insertAll hash {} sources).mapError .read
  if c.versions.length = sources.length then return c
  else throw (.repeatedVersion sources.length c.versions.length)

variable (c : Compacted H)

def lines? (v : Version) : Option (List String) := do
  let h ← c.versions.lookup v
  c.blobs.lookup h

def text? (v : Version) : Option String := (c.lines? v).map joinLines

def unique : Nat := c.blobs.length

end Compacted

end ShaderDialects.Package
