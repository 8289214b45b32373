import Evlis.Fault

/-!
# Crews

A crew is a bounded number of workers for operands that are shared out. Whoever hands over an
operand takes a slot first; with no slot free, the operand is evaluated by its own thread.
-/

namespace Evlis

/-- A crew: how many slots it has, how many of them are free, and why it takes no work, if it
takes none. -/
structure Crew where
  slots : Nat
  free : Nat
  refusal : Option Fault
deriving DecidableEq

namespace Crew

def ofSize (size : Int) : Except Fault Crew :=
  if size < 1 then .error .noWorkers else .ok ⟨size.toNat, size.toNat, none⟩

def acquire (crew : Crew) : Bool × Crew :=
  if 0 < crew.free then (true, { crew with free := crew.free - 1 }) else (false, crew)

/-- Give a slot back; there are never more free slots than slots. -/
def release (crew : Crew) : Except Fault Crew :=
  if crew.free < crew.slots then .ok { crew with free := crew.free + 1 }
  else .error .tooManyReleases

/-- Attempts to take slots for work from elsewhere, one after the other: which of them succeed. -/
def acquireMany : Nat → Crew → List Bool × Crew
  | 0, crew => ([], crew)
  | n + 1, crew =>
    let (taken, crew) := crew.acquire
    let (more, crew) := acquireMany n crew
    (taken :: more, crew)

/-- Give back slots that were taken for work from elsewhere, one after the other, up to the first
that is one too many. -/
def releaseMany : Nat → Crew → Except Fault Unit × Crew
  | 0, crew => (.ok (), crew)
  | n + 1, crew =>
    match crew.release with
    | .ok crew => releaseMany n crew
    | .error fault => (.error fault, crew)

def refuse (fault : Fault) (crew : Crew) : Crew := { crew with refusal := some fault }

end Crew

end Evlis
