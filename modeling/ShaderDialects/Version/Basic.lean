namespace ShaderDialects

inductive Family where
  | full
  | embedded
  deriving DecidableEq

def Family.name : Family → String
  | full => "GLSL"
  | embedded => "GLSL ES"

inductive FullVersion where
  | v110 | v120 | v130 | v140 | v150 | v330 | v400 | v410 | v420 | v430 | v440 | v450 | v460
  deriving DecidableEq

namespace FullVersion

def all : List FullVersion :=
  [v110, v120, v130, v140, v150, v330, v400, v410, v420, v430, v440, v450, v460]

def number : FullVersion → Nat
  | v110 => 110
  | v120 => 120
  | v130 => 130
  | v140 => 140
  | v150 => 150
  | v330 => 330
  | v400 => 400
  | v410 => 410
  | v420 => 420
  | v430 => 430
  | v440 => 440
  | v450 => 450
  | v460 => 460

def index (v : FullVersion) : Nat := all.idxOf v

theorem mem_all (v : FullVersion) : v ∈ all := by
  cases v <;> decide

end FullVersion

inductive EmbeddedVersion where
  | v100 | v300 | v310 | v320
  deriving DecidableEq

namespace EmbeddedVersion

def all : List EmbeddedVersion := [v100, v300, v310, v320]

def number : EmbeddedVersion → Nat
  | v100 => 100
  | v300 => 300
  | v310 => 310
  | v320 => 320

def index (v : EmbeddedVersion) : Nat := all.idxOf v

theorem mem_all (v : EmbeddedVersion) : v ∈ all := by
  cases v <;> decide

end EmbeddedVersion

inductive Version where
  | full (version : FullVersion)
  | embedded (version : EmbeddedVersion)
  deriving DecidableEq

namespace Version

def all : List Version := FullVersion.all.map full ++ EmbeddedVersion.all.map embedded

theorem mem_all (v : Version) : v ∈ all := by
  cases v with
  | full v => simpa [all] using v.mem_all
  | embedded v => simpa [all] using v.mem_all

def family : Version → Family
  | full _ => .full
  | embedded _ => .embedded

def number : Version → Nat
  | full v => v.number
  | embedded v => v.number

def ofNumber? (f : Family) (n : Nat) : Option Version :=
  all.find? fun v => v.family = f ∧ v.number = n

/-- Whether the version is from before `in`, `out` and user-declared fragment outputs. -/
def isLegacy : Version → Bool
  | full .v110 | full .v120 | embedded .v100 => true
  | _ => false

/-- The order of versions of one family; versions of different families have none. -/
def compare? (v w : Version) : Option Ordering :=
  if v.family = w.family then some (compare v.number w.number) else none

/-- Whether the version is `e` or later of its family, or `f` or later of its. -/
def isSince (e : EmbeddedVersion) (f : FullVersion) : Version → Bool
  | full v => f.number ≤ v.number
  | embedded v => e.number ≤ v.number

def hasLocations (v : Version) : Bool := v.isSince .v300 .v330

def name (v : Version) : String := v.family.name ++ " " ++ toString v.number

def directive : Version → String
  | embedded .v100 => "#version 100"
  | embedded v => "#version " ++ toString v.number ++ " es"
  | full v => "#version " ++ toString v.number

end Version

end ShaderDialects
