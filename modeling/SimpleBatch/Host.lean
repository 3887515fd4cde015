/-!
# Hosts

A script reaches the outside only through its host: it writes to a log, runs
commands of the host, and clears the log; and the lines it runs are echoed
there. A host is a way to take these calls, as changes of a state of its own.
Nothing of that state goes back to the script.

* `Recorder` is the state of a host that keeps all calls, sorted by what they
  are, in `Recorder.host`;
* `Host.trace` keeps the calls in their order.
-/

namespace SimpleBatch

/-- The level of a line in the log. -/
inductive Level where
  | info
  | warning
  | error
deriving DecidableEq, Repr

/-- A host with states in `σ`. -/
structure Host (σ : Type) where
  /-- A line is added to the log. -/
  log : Level → String → σ → σ
  /-- A command of the host is run. -/
  execute : String → σ → σ
  /-- The log is cleared. -/
  clear : σ → σ
  /-- A line of the script is echoed; by default, into the log. -/
  echo : String → σ → σ := log .info

/-- A call of a script to its host. -/
inductive Call where
  | log (level : Level) (text : String)
  | execute (command : String)
  | clear
  | echo (line : String)
deriving DecidableEq, Repr

/-- The state of a host after a call. -/
def Host.perform {σ : Type} (h : Host σ) : Call → σ → σ
  | .log level text => h.log level text
  | .execute command => h.execute command
  | .clear => h.clear
  | .echo line => h.echo line

/-- A host that keeps all calls in their order, echoed lines among the lines
    of the log. -/
def Host.trace : Host (Array Call) where
  log level text calls := calls.push (.log level text)
  execute command calls := calls.push (.execute command)
  clear calls := calls.push .clear

/-- The calls that a host has received, sorted by what they are. -/
structure Recorder where
  /-- The lines of the log. -/
  log : Array (Level × String) := #[]
  /-- The echoed lines. -/
  echoed : Array String := #[]
  /-- The commands that were run. -/
  executed : Array String := #[]
  /-- How often the log was cleared. -/
  clears : Nat := 0
deriving DecidableEq, Repr

namespace Recorder

/-- The host that records calls. -/
def host : Host Recorder where
  log level text r := { r with log := r.log.push (level, text) }
  execute command r := { r with executed := r.executed.push command }
  clear r := { r with clears := r.clears + 1 }
  echo line r := { r with echoed := r.echoed.push line }

/-- The recorded lines of the log at a level. -/
def lines (r : Recorder) (level : Level) : List String :=
  (r.log.toList.filter (·.1 = level)).map (·.2)

end Recorder

end SimpleBatch
