import SimpleBatch.Invocation
import SimpleBatch.Machine

/-!
# Runs

A run of a program visits its lines one after another, beginning with the
first. A line that is no command is passed over. The run ends when it goes past
the last line, when the script quits, or in a fault.

A run need not end: `Program.resume` visits a bounded number of lines and says
whether there are more to visit. Every run has its own memory and generator,
and starts with echoing on; only the host is carried from one run to the next,
as in a `Session`.
-/

namespace SimpleBatch

/-- A run on its way. -/
structure Run (σ : Type) where
  machine : Machine σ
  /-- The index of the next line. -/
  index : Nat
  /-- How many lines were visited. -/
  visited : Nat

/-- What has become of a run. -/
inductive Progress (σ : Type) where
  /-- There are more lines to visit. -/
  | running (r : Run σ)
  /-- The run has ended. -/
  | finished (r : Run σ)
  /-- The run has ended in a fault. -/
  | failed (e : ScriptError) (r : Run σ)

/-- What a run does not take from its invocation: the environment, and the
    seed of its generator. -/
structure Setup where
  environment : Environment := {}
  seed : UInt64 := 0

/-- The run that has not visited any line. -/
def Run.start {σ : Type} (setup : Setup) (invocation : Invocation) (host : σ) : Run σ :=
  { machine := {
      memory := .start invocation.values setup.environment
      echo := true
      generator := .ofSeed setup.seed
      host }
    index := 0
    visited := 0 }

namespace Program

variable {σ : Type} (host : Host σ) (p : Program)

/-- A run after a visit of the line at its index. -/
def visit (r : Run σ) (entry : Entry) : Progress σ :=
  let r := { r with visited := r.visited + 1 }
  match entry.line? with
  | none => .running { r with index := r.index + 1 }
  | some line =>
    match Machine.execute host p r.index line entry.command? r.machine with
    | (.ok .next, machine) => .running { r with machine, index := r.index + 1 }
    | (.ok (.after i), machine) => .running { r with machine, index := i + 1 }
    | (.ok .halt, machine) => .finished { r with machine }
    | (.error fault, machine) =>
      .failed
        { line := r.index + 1, command := line.keyword.map Char.toUpper, fault }
        { r with machine }

/-- A run after one more visit, if it is not at its end. -/
def advance (r : Run σ) : Progress σ :=
  match p.entries[r.index]? with
  | none => .finished r
  | some entry => p.visit host r entry

/-- A run after at most `fuel` more visits. -/
def resume : (fuel : Nat) → Run σ → Progress σ
  | 0, r => .running r
  | fuel + 1, r =>
    match p.advance host r with
    | .running r => resume fuel r
    | ended => ended

end Program

/-- The state of the host that a run has come to. -/
def Progress.host {σ : Type} : Progress σ → σ
  | running r => r.machine.host
  | finished r => r.machine.host
  | failed _ r => r.machine.host

/-- Programs with their invocations, to be run one after another. -/
abbrev Session := List (Program × Invocation)

/-- The runs of a session on one host, each with at most `fuel` visits. -/
def Session.run {σ : Type} (host : Host σ) (setup : Setup) (fuel : Nat) :
    Session → σ → List (Progress σ)
  | [], _ => []
  | (p, invocation) :: rest, s =>
    let result := p.resume host fuel (.start setup invocation s)
    result :: Session.run host setup fuel rest result.host

end SimpleBatch
