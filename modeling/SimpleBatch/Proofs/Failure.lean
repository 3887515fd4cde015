import SimpleBatch.Proofs.Calls

/-!
# Faults

A line that ends in a fault has done nothing, and a fault is reported with the
line it arose in. Every command makes its one write or its one call last, after
all that can fail; only the generator may have moved, by a draw whose number
could not be written.

* `Action.spent_of_error`: when the generator has moved;
* `Machine.execute_error`: what a line that fails leaves of a machine;
* `Program.fault_atomic`: the same for lines, and what follows for whole runs.
-/

namespace SimpleBatch

variable {σ : Type}

/-- In a fault, the generator has moved only if a number was drawn that could
    not be written. -/
theorem Action.spent_of_error {p : Program} {i : Nat} {args : List Value} {m : Memory}
    {g : Generator} {a : Action} {fault : Fault} (h : a.effect p i args m g = .error fault) :
    a.spent args m g = g ∨ a = .draw ∧
      ∃ value, m.drawn g args = .ok (value, a.spent args m g) ∧
        m.assign value (Memory.drawDestination args) = .error fault := by
  cases a with
  | draw =>
    cases hd : m.drawn g args with
    | error fault => simp [spent, hd]
    | ok drawn =>
      obtain ⟨value, generator⟩ := drawn
      refine .inr ⟨rfl, value, by simp [spent, hd], ?_⟩
      cases hm : m.assign value (Memory.drawDestination args) with
      | ok memory => simp [effect, hd, hm] at h
      | error fault' => simpa [effect, hd, hm] using h
  | _ => exact .inl rfl

/-- Only one command draws. -/
theorem Command.eq_random_of_action {c : Command} (h : c.action = .draw) : c = .random := by
  cases c <;> cases h
  rfl

namespace Machine

variable {host : Host σ} {p : Program} {i : Nat} {line : Line} {m m' : Machine σ}

/-- A line can only fail if it has a command, and then leaves the machine as it
    was, but for the generator. -/
theorem execute_error {command? : Option Command} {fault : Fault}
    (h : execute host p i line command? m = (.error fault, m')) :
    ∃ command, command? = some command ∧
      command.action.effect p i line.args m.memory m.generator = .error fault ∧
      m' = { m with generator := command.action.spent line.args m.memory m.generator } := by
  cases command? with
  | none =>
    rw [execute_none] at h
    cases h
  | some command =>
    refine ⟨command, rfl, ?_⟩
    rw [execute_some] at h
    cases he : command.action.effect p i line.args m.memory m.generator with
    | ok result => rw [he] at h; cases h
    | error fault' =>
      rw [he] at h
      cases h
      exact ⟨rfl, rfl⟩

/-- A line that fails has changed nothing, but for a number that was drawn and
    could not be written. -/
theorem unchanged_of_error {command? : Option Command} {fault : Fault}
    (h : execute host p i line command? m = (.error fault, m')) :
    m'.memory = m.memory ∧ m'.echo = m.echo ∧ m'.host = m.host ∧
      (m'.generator = m.generator ∨ command? = some .random ∧
        ∃ value, m.memory.drawn m.generator line.args = .ok (value, m'.generator) ∧
          m.memory.assign value (Memory.drawDestination line.args) = .error fault) := by
  obtain ⟨command, rfl, he, rfl⟩ := execute_error h
  refine ⟨rfl, rfl, rfl, (Action.spent_of_error he).imp_right fun ⟨ha, hd⟩ => ⟨?_, hd⟩⟩
  rw [Command.eq_random_of_action ha]

end Machine

namespace Program

variable {host : Host σ} {p : Program}

/-- A visit in which a run fails is that of a command that fails. -/
theorem Visit.execute_of_failed {r r' : Run σ} {entry : Entry} {e : ScriptError}
    (h : p.Visit host r entry (.failed e r')) (hp : p.entries[r.index]? = some entry) :
    ∃ line, p.line? r.index = some line ∧ e.line = r.index + 1 ∧
      e.command = line.keyword.map Char.toUpper ∧
      Machine.execute host p r.index line (p.command? r.index) r.machine =
        (.error e.fault, r'.machine) := by
  generalize hx : Progress.failed e r' = x at h
  cases h with
  | blank => cases hx
  | unknown => cases hx
  | @command line command e' flow => cases flow <;> cases hx
  | fault hl hc he =>
    cases hx
    refine ⟨_, (line?_of_some hp).trans hl, rfl, rfl, ?_⟩
    rw [command?_of_some hp, hc, Machine.execute_some, he]

/-- A fault changes nothing, and is reported where it arose.

    A line that fails leaves memory, the switch for echoing and the host as they
    were, and so is not echoed. The generator is as it was, unless a random
    number was drawn that could not be written.

    So a run that fails has visited some number `n` of lines before, and the
    host has received the calls of these visits, and no others. The fault is
    that of the line the run was at then, whose number and keyword are
    reported; and the run stays as it is, however many visits are allowed. -/
theorem fault_atomic (host : Host σ) (p : Program) :
    (∀ (i : Nat) (line : Line) (command? : Option Command) (fault : Fault) (m m' : Machine σ),
      Machine.execute host p i line command? m = (.error fault, m') →
        m'.memory = m.memory ∧ m'.echo = m.echo ∧ m'.host = m.host ∧
          (m'.generator = m.generator ∨ command? = some .random ∧
            ∃ value, m.memory.drawn m.generator line.args = .ok (value, m'.generator) ∧
              m.memory.assign value (Memory.drawDestination line.args) = .error fault)) ∧
      ∀ (setup : Setup) (invocation : Invocation) (s : σ) (fuel : Nat) (e : ScriptError)
        (r : Run σ), p.resume host fuel (.start setup invocation s) = .failed e r →
        ∃ n r₀ line, p.resume host n (.start setup invocation s) = .running r₀ ∧
          r₀.visited = n ∧ r.visited = n + 1 ∧
          p.line? r₀.index = some line ∧
          Machine.execute host p r₀.index line (p.command? r₀.index) r₀.machine =
            (.error e.fault, r.machine) ∧
          r.machine.host = host.performAll (p.calls host n (.start setup invocation s)) s ∧
          e.line = r₀.index + 1 ∧ 1 ≤ e.line ∧ e.line ≤ p.size ∧
          e.command = line.keyword.map Char.toUpper ∧
          ∀ more, p.resume host (n + 1 + more) (.start setup invocation s) = .failed e r := by
  refine ⟨fun i line command? fault m m' h => Machine.unchanged_of_error h, ?_⟩
  intro setup invocation s fuel e r h
  -- The run is cut before its last visit, the one that fails.
  obtain ⟨n, r₀, entry, hr₀, hp, hv⟩ := exists_of_resume_failed h
  obtain ⟨line, hl, hline, hcommand, hx⟩ := hv.execute_of_failed hp
  have hn : r₀.visited = n := (visited_of_resume_running hr₀).trans (Nat.zero_add n)
  have hsize : r₀.index < p.size := lt_size_of_some hp
  refine ⟨n, r₀, line, hr₀, hn, ?_, hl, hx, ?_, hline, by omega, by omega, hcommand, fun more => ?_⟩
  · rw [← hn]
    exact hv.visited
  · rw [(Machine.unchanged_of_error hx).2.2.1]
    have hh := host_resume host p n (.start setup invocation s)
    rw [hr₀] at hh
    exact hh
  · rw [Nat.add_assoc, Nat.add_comm 1 more, resume_add_of_running _ hr₀,
      resume_of_ended hp hv nofun]

/-- A random number for a slot that cannot be written: the line before is the
    only one that the host hears of. -/
theorem fault_atomic_random :
    let p := Program.ofLines ["LOG a", "Random 3", "LOG b"]
    let start := Run.start {} ⟨"T", []⟩ (#[] : Array Call)
    ∃ r n r₀, p.resume Host.trace 3 start = .failed ⟨2, "RANDOM", .readOnlySlot 3⟩ r ∧
      p.resume Host.trace n start = .running r₀ ∧ r₀.index = 1 ∧
      r.machine.memory = r₀.machine.memory ∧ r.machine.echo = r₀.machine.echo ∧
      r.machine.host = Host.trace.performAll (p.calls Host.trace n start) #[] := by
  intro p start
  have hf : (p.resume Host.trace 3 start).error? = some ⟨2, "RANDOM", .readOnlySlot 3⟩ := by
    decide +kernel
  obtain ⟨r, hr⟩ := Progress.exists_of_error? hf
  obtain ⟨n, r₀, line, hr₀, -, -, -, hx, hh, hline, -⟩ :=
    (fault_atomic Host.trace p).2 {} ⟨"T", []⟩ #[] 3 _ r hr
  obtain ⟨hm, he, -, -⟩ := (fault_atomic Host.trace p).1 r₀.index line _ _ r₀.machine r.machine hx
  exact ⟨r, n, r₀, hr, hr₀, (Nat.succ.inj hline).symm, hm, he, hh⟩

end Program

end SimpleBatch
