import SimpleBatch.Proofs.Course

/-!
# What the host hears

The calls of a run come from its visits, and those of a visit are told by the
line and by how the visit ends (`Program.heard`): a report for a keyword that
belongs to no command; for a command the call that it makes of its own, if it
is one of five (`Command.call?`), and after it an echo, if echoing is on by
then; and nothing at all for a line that is no command, or that fails.

So the switch for echoing is of no consequence but for the echoes themselves
(`Program.echo_observes`). Runs of the same course end alike, whether they echo
or not, and but for echoes their hosts hear the same.
-/

namespace SimpleBatch

variable {σ τ : Type}

/-- Whether a call is an echo. -/
def Call.isEcho : Call → Bool
  | echo _ => true
  | _ => false

/-- The text that the first argument of a line stands for. -/
def Line.text (line : Line) (m : Memory) : String :=
  (m.required .composite line.args).toOption.elim "" Value.render

/-- The call that a command makes of its own, with the text of its argument. -/
def Command.call? (text : String) : Command → Option Call
  | log => some (.log .info text)
  | logW => some (.log .warning text)
  | logE => some (.log .error text)
  | exe => some (.execute text)
  | cls => some .clear
  | _ => none

theorem Command.call?_eq (text : String) (c : Command) :
    c.call? text = match c.action with
      | .execute => some (.execute text)
      | .log level => some (.log level text)
      | .clear => some .clear
      | _ => none := by
  cases c <;> rfl

/-- The calls of the effect of a command are its own. -/
theorem Command.calls_of_effect {p : Program} {i : Nat} {line : Line} {m : Memory} {g : Generator}
    {c : Command} {e : Effect} {flow : Flow}
    (he : c.action.effect p i line.args m g = .ok (e, flow)) :
    e.calls = (c.call? (line.text m)).toList := by
  have hy := Action.yields_of_effect he
  rw [c.call?_eq]
  generalize c.action = a at hy
  cases hy with
  | execute ht | log ht =>
    rw [Line.text, ht]
    rfl
  | _ => rfl

namespace Program

/-- What the host hears of the visit of a line by a run that comes to `x`. -/
def heard (r : Run σ) (entry : Entry) (x : Progress σ) : List Call :=
  match entry.line?, entry.command? with
  | none, _ => []
  | some line, none => [.log .error (Command.unknownMessage line.keyword ++ ".")]
  | some line, some command =>
    if x.error?.isSome then []
    else
      (command.call? (line.text r.machine.memory)).toList ++
        if x.run.machine.echo then [.echo (Machine.echoLine line.keyword line.args)] else []

section Calls

variable {host : Host σ} {p : Program}

/-- The calls of a visit are what the host hears of it. -/
theorem Visit.callsAt_eq {r : Run σ} {entry : Entry} {x : Progress σ}
    (h : p.Visit host r entry x) : p.callsAt r entry = heard r entry x := by
  cases h with
  | blank hl => simp only [callsAt, heard, hl]
  | unknown hl hc => simp only [callsAt, heard, hl, hc]
  | @command line command e flow hl hc he =>
    have hx : ∀ r : Run σ, (r.follow flow).error? = none := fun r => by cases flow <;> rfl
    have hecho : ((e.apply host r.machine).echoed host line).echo = e.echo r.machine.echo := by
      rw [← Effect.echo_apply host, Machine.echoed]
      split <;> rfl
    simp only [callsAt, heard, hl, hc, he, hx, Run.run_follow_machine, hecho,
      Command.calls_of_effect he]
    split <;> simp
  | fault hl hc he => simp only [callsAt, heard, hl, hc, he]; rfl

/-- A run's calls are what the host hears of its visits. -/
theorem calls_eq_collect_heard (fuel : Nat) (r : Run σ) :
    p.calls host fuel r =
      p.collect host (fun r entry => heard r entry (p.visit host r entry)) fuel r := by
  have hf : p.callsAt = fun r entry => heard r entry (p.visit host r entry) := by
    funext r entry
    exact (visit_spec host p r entry).callsAt_eq
  rw [calls, hf]

end Calls

end Program

/-! ## Runs with and without echoes -/

theorem Call.filter_echo (on : Bool) (calls : List Call) (line : String) :
    (if on then calls ++ [.echo line] else calls).filter (!·.isEcho) =
      calls.filter (!·.isEcho) := by
  cases on <;> simp [isEcho]

/-- But for echoes, visits of runs of the same course make the same calls. -/
theorem Run.Alike.filter_callsAt {E : Bool → Bool → Prop} {r : Run σ} {r' : Run τ}
    (h : r.Alike E r') (p : Program) (entry : Entry) :
    (p.callsAt r entry).filter (!·.isEcho) = (p.callsAt r' entry).filter (!·.isEcho) := by
  simp only [Program.callsAt, h.index, h.machine.memory, h.machine.generator]
  cases entry.line? with
  | none => rfl
  | some line =>
    cases entry.command? with
    | none => rfl
    | some command =>
      dsimp only
      cases command.action.effect p r'.index line.args r'.machine.memory r'.machine.generator with
      | error fault => rfl
      | ok result => exact (Call.filter_echo _ _ _).trans (Call.filter_echo _ _ _).symm

namespace Program

variable {p : Program}

theorem filter_calls_of_course (host : Host σ) (host' : Host τ) {r : Run σ} {r' : Run τ}
    (h : r.course = r'.course) (fuel : Nat) :
    (p.calls host fuel r).filter (!·.isEcho) = (p.calls host' fuel r').filter (!·.isEcho) := by
  rw [calls, calls, filter_collect, filter_collect]
  exact (Run.alike_of_course h).collect host host' (fun _ => trivial)
    (fun r r' entry ha => ha.filter_callsAt p entry) fuel

theorem outcome_of_course (host : Host σ) (host' : Host τ) {r : Run σ} {r' : Run τ}
    (h : r.course = r'.course) (fuel : Nat) :
    (p.resume host fuel r).outcome = (p.resume host' fuel r').outcome :=
  ((Run.alike_of_course h).resume host host' (fun _ => trivial) fuel).outcome

theorem diverges_of_course {host : Host σ} (host' : Host τ) {r : Run σ} {r' : Run τ}
    (h : r.course = r'.course) (hd : p.Diverges host r) : p.Diverges host' r' := by
  intro fuel
  obtain ⟨r₁, hr₁⟩ := hd fuel
  have ho : (p.resume host fuel r).outcome = (p.resume host' fuel r').outcome :=
    outcome_of_course host host' h fuel
  rw [hr₁] at ho
  cases hx : p.resume host' fuel r' with
  | running r₁' => exact ⟨r₁', rfl⟩
  | finished r₁' | failed e r₁' =>
    rw [hx] at ho
    cases ho

/-- Echoing is of no consequence, and what the host hears of a run is told by
    its visits.

    Two runs of a program that differ in nothing but their switches for echoing
    and their hosts come to the same, and if one of them never ends, neither does
    the other; but for echoes, their hosts hear the same. And the calls that the
    host of a run receives are what it hears of the visits, one after another. -/
theorem echo_observes (host : Host σ) (host' : Host τ) (p : Program) :
    (∀ (r : Run σ) (r' : Run τ), r.course = r'.course →
      (p.Diverges host r ↔ p.Diverges host' r') ∧
        ∀ fuel, (p.resume host fuel r).outcome = (p.resume host' fuel r').outcome ∧
          (p.calls host fuel r).filter (!·.isEcho) =
            (p.calls host' fuel r').filter (!·.isEcho)) ∧
      ∀ (fuel : Nat) (r : Run σ),
        p.calls host fuel r =
            p.collect host (fun r entry => heard r entry (p.visit host r entry)) fuel r ∧
          (p.resume host fuel r).run.machine.host =
            host.performAll (p.calls host fuel r) r.machine.host := by
  refine ⟨fun r r' h => ⟨⟨diverges_of_course host' h, diverges_of_course host h.symm⟩, ?_⟩, ?_⟩
  · exact fun fuel =>
      ⟨outcome_of_course host host' h fuel, filter_calls_of_course host host' h fuel⟩
  · exact fun fuel r => ⟨calls_eq_collect_heard fuel r, host_resume host p fuel r⟩

/-- A run that starts without echoing and is told to echo, beside one that
    echoes throughout. -/
theorem echo_observes_switch :
    let p := ofLines ["LOG a", "NOPE", "ECHO 1", "LOG b"]
    let r := Run.start {} ⟨"T", []⟩ (#[] : Array Call)
    let r' : Run (Array Call) :=
      { r with machine := { r.machine with echo := false, host := #[.clear] } }
    r.course = r'.course ∧
      (p.calls Host.trace 5 r).length = 6 ∧ (p.calls Host.trace 5 r').length = 5 ∧
      (p.resume Host.trace 5 r).outcome = (p.resume Host.trace 5 r').outcome ∧
      (p.calls Host.trace 5 r).filter (!·.isEcho) =
        (p.calls Host.trace 5 r').filter (!·.isEcho) := by
  intro p r r'
  obtain ⟨ho, hc⟩ := ((echo_observes Host.trace Host.trace p).1 r r' rfl).2 5
  exact ⟨rfl, by decide +kernel, by decide +kernel, ho, hc⟩

end Program

end SimpleBatch
