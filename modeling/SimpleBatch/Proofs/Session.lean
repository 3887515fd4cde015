import Mathlib.Algebra.Ring.Nat
import SimpleBatch.Proofs.Course

/-!
# Sessions

The runs of a session share a host, and nothing else. Each of them takes the
course that it would take alone, whatever came before and whoever listens
(`Session.outcomes_eq`), and makes the same calls; so the host is left in the
state that the calls of all runs make, one run after the other
(`Session.after_eq`).

What this comes to for a host depends on what it does with calls. A `Recorder`
sorts them, and its record of a session is put together from those of its runs
(`Session.after_recorder`). A host that echoes into its log takes an echo for a
line of the log (`Host.performAll_logged`).
-/

namespace SimpleBatch

variable {σ τ : Type}

/-! ## Hosts that keep their calls -/

/-- A call as it is taken by a host that echoes into its log. -/
def Call.logged : Call → Call
  | echo line => .log .info line
  | c => c

/-- For a host that echoes into its log, an echo is a line of the log. -/
theorem Host.performAll_logged {host : Host σ} (h : host.echo = host.log .info)
    (calls : List Call) (s : σ) :
    host.performAll calls s = host.performAll (calls.map Call.logged) s := by
  have hc : ∀ (s : σ) (c : Call), host.perform c s = host.perform c.logged s := by
    intro s c
    cases c with
    | echo line => exact congrFun (congrFun h line) s
    | _ => rfl
  rw [performAll, performAll, List.foldl_map]
  congr 1
  funext s c
  exact hc s c

/-- The calls that `Host.trace` has kept. -/
theorem Host.toList_performAll_trace (calls : List Call) (a : Array Call) :
    (trace.performAll calls a).toList = a.toList ++ calls.map Call.logged := by
  induction calls generalizing a with
  | nil => exact (List.append_nil _).symm
  | cons c calls ih =>
    have hc : (trace.perform c a).toList = a.toList ++ [c.logged] := by
      cases c <;> exact Array.toList_push
    rw [List.map_cons, List.append_cons, ← hc]
    exact ih _

namespace Recorder

/-- A record, and another one after it. -/
def append (r r' : Recorder) : Recorder where
  log := r.log ++ r'.log
  echoed := r.echoed ++ r'.echoed
  executed := r.executed ++ r'.executed
  clears := r.clears + r'.clears

theorem append_assoc (r₁ r₂ r₃ : Recorder) :
    (r₁.append r₂).append r₃ = r₁.append (r₂.append r₃) := by
  simp only [append, Array.append_assoc, Nat.add_assoc]

theorem perform_eq_append (c : Call) (r : Recorder) :
    host.perform c r = r.append (host.perform c {}) := by
  cases c <;> simp [Host.perform, host, append]

/-- New calls are recorded after the old ones. -/
theorem performAll_eq_append (calls : List Call) (r : Recorder) :
    host.performAll calls r = r.append (host.performAll calls {}) := by
  induction calls generalizing r with
  | nil => simp [Host.performAll, append]
  | cons c calls ih =>
    calc host.performAll (c :: calls) r
        = (host.perform c r).append (host.performAll calls {}) := ih _
      _ = r.append ((host.perform c {}).append (host.performAll calls {})) := by
          rw [perform_eq_append, append_assoc]
      _ = r.append (host.performAll (c :: calls) {}) := congrArg _ (ih _).symm

end Recorder

/-! ## Runs of a session -/

theorem Progress.host_eq (x : Progress σ) : x.host = x.run.machine.host := by
  cases x <;> rfl

namespace Program

variable (host : Host σ) (host' : Host τ) (p : Program) (setup : Setup) (invocation : Invocation)
  (fuel : Nat) (s : σ) (s' : τ)

/-- A run takes the same course with any host. -/
theorem outcome_start :
    (p.resume host fuel (.start setup invocation s)).outcome =
      (p.resume host' fuel (.start setup invocation s')).outcome :=
  ((Run.alike_start setup invocation s s').resume host host' (fun _ => rfl) fuel).outcome

/-- And makes the same calls. -/
theorem calls_start :
    p.calls host fuel (.start setup invocation s) =
      p.calls host' fuel (.start setup invocation s') :=
  (Run.alike_start setup invocation s s').calls_eq host host' fuel

theorem host_start :
    (p.resume host fuel (.start setup invocation s)).host =
      host.performAll (p.calls host' fuel (.start setup invocation s')) s := by
  rw [Progress.host_eq, host_resume, calls_start host host' p setup invocation fuel s s']
  rfl

/-- What a run adds to a record is what it would record alone. -/
theorem recorder_start (r : Recorder) :
    (p.resume Recorder.host fuel (.start setup invocation r)).host =
      r.append (p.resume Recorder.host fuel (.start setup invocation {})).host := by
  rw [host_start Recorder.host Recorder.host p setup invocation fuel r {},
    host_start Recorder.host Recorder.host p setup invocation fuel {} {},
    Recorder.performAll_eq_append]

end Program

namespace Session

variable (host : Host σ) (host' : Host τ) (setup : Setup) (fuel : Nat) (session : Session)

/-- The state that the runs of a session leave the host in. -/
def after (s : σ) : σ :=
  ((session.run host setup fuel s).getLast?.map Progress.host).getD s

/-- The calls of the runs of a session, each as it makes them alone. -/
def calls (s : σ) : List Call :=
  session.flatMap fun (p, invocation) => p.calls host fuel (.start setup invocation s)

theorem calls_cons (p : Program) (invocation : Invocation) (s : σ) :
    calls host setup fuel ((p, invocation) :: session) s =
      p.calls host fuel (.start setup invocation s) ++ calls host setup fuel session s :=
  List.flatMap_cons

theorem after_cons (p : Program) (invocation : Invocation) (s : σ) :
    after host setup fuel ((p, invocation) :: session) s =
      after host setup fuel session (p.resume host fuel (.start setup invocation s)).host := by
  simp only [after, run, List.getLast?_cons, Option.map_some, Option.getD_some]
  cases (run host setup fuel session
    (p.resume host fuel (.start setup invocation s)).host).getLast? <;> rfl

/-- Each run of a session comes to what it comes to alone, with any host. -/
theorem outcomes_eq (s : σ) (s' : τ) :
    (session.run host setup fuel s).map Progress.outcome =
      session.map fun (p, invocation) =>
        (p.resume host' fuel (.start setup invocation s')).outcome := by
  induction session generalizing s with
  | nil => rfl
  | cons run session ih =>
    obtain ⟨p, invocation⟩ := run
    rw [Session.run, List.map_cons, List.map_cons, ih,
      Program.outcome_start host host' p setup invocation fuel s s']

/-- The host hears the runs one after the other. -/
theorem after_eq (s : σ) (s' : τ) :
    session.after host setup fuel s =
      host.performAll (session.calls host' setup fuel s') s := by
  induction session generalizing s with
  | nil => rfl
  | cons run session ih =>
    obtain ⟨p, invocation⟩ := run
    rw [after_cons, ih, Program.host_start host host' p setup invocation fuel s s', calls_cons,
      Host.performAll_append]

/-- The record of a session is that of its runs, one after the other. -/
theorem after_recorder (r : Recorder) :
    let alone := session.map fun (p, invocation) =>
      (p.resume Recorder.host fuel (.start setup invocation {})).host
    let r' := session.after Recorder.host setup fuel r
    r'.log.toList = r.log.toList ++ alone.flatMap (·.log.toList) ∧
      r'.echoed.toList = r.echoed.toList ++ alone.flatMap (·.echoed.toList) ∧
      r'.executed.toList = r.executed.toList ++ alone.flatMap (·.executed.toList) ∧
      r'.clears = r.clears + (alone.map (·.clears)).sum := by
  induction session generalizing r with
  | nil => simp [after, run]
  | cons run session ih =>
    obtain ⟨p, invocation⟩ := run
    have hr := p.recorder_start setup invocation fuel r
    simpa only [after_cons, hr, List.map_cons, List.flatMap_cons, List.sum_cons, Recorder.append,
      Array.toList_append, List.append_assoc, Nat.add_assoc] using ih (r.append _)

/-- The runs of a session do not see each other, and no run sees its host.

    Each of them comes to what it comes to alone, with any host in any state:
    the number of lines that it visits, its memory and the rest of its course,
    or its fault; and if it ends alone, it does not matter how many visits it
    was allowed there. With any two hosts it makes the same calls, and these are
    all that happens to a host. So the host hears the runs one after the other: a
    `Recorder` has in the end the records of the single runs, in their order and
    after what it had before; and a host that echoes into its log, as
    `Host.trace` does, has heard the same calls with a line of the log for each
    echo. -/
theorem runs_isolated (host : Host σ) (host' : Host τ) (setup : Setup) (fuel : Nat)
    (session : Session) (s : σ) (s' : τ) :
    ((session.run host setup fuel s).map Progress.outcome =
      session.map fun (p, invocation) =>
        (p.resume host' fuel (.start setup invocation s')).outcome) ∧
    (∀ (p : Program) (invocation : Invocation) (n : Nat),
      (p.resume host' n (.start setup invocation s')).Ended → n ≤ fuel →
        (p.resume host fuel (.start setup invocation s)).outcome =
          (p.resume host' n (.start setup invocation s')).outcome) ∧
    (∀ (p : Program) (invocation : Invocation),
      p.calls host fuel (.start setup invocation s) =
          p.calls host' fuel (.start setup invocation s') ∧
        (p.resume host fuel (.start setup invocation s)).host =
          host.performAll (p.calls host' fuel (.start setup invocation s')) s) ∧
    session.after host setup fuel s = host.performAll (session.calls host' setup fuel s') s ∧
    (∀ r : Recorder,
      let alone := session.map fun (p, invocation) =>
        (p.resume Recorder.host fuel (.start setup invocation {})).host
      let r' := session.after Recorder.host setup fuel r
      r'.log.toList = r.log.toList ++ alone.flatMap (·.log.toList) ∧
        r'.echoed.toList = r.echoed.toList ++ alone.flatMap (·.echoed.toList) ∧
        r'.executed.toList = r.executed.toList ++ alone.flatMap (·.executed.toList) ∧
        r'.clears = r.clears + (alone.map (·.clears)).sum) ∧
    (host.echo = host.log .info →
      session.after host setup fuel s =
        host.performAll ((session.calls host' setup fuel s').map Call.logged) s) ∧
    ∀ a : Array Call, (session.after Host.trace setup fuel a).toList =
      a.toList ++ (session.calls host' setup fuel s').map Call.logged := by
  refine ⟨session.outcomes_eq host host' setup fuel s s', fun p invocation n hn hle => ?_,
    fun p invocation => ?_, session.after_eq host host' setup fuel s s',
    session.after_recorder setup fuel, fun he => ?_, fun a => ?_⟩
  · rw [← Program.resume_eq_of_le hn hle]
    exact p.outcome_start host host' setup invocation fuel s s'
  · exact ⟨p.calls_start host host' setup invocation fuel s s',
      p.host_start host host' setup invocation fuel s s'⟩
  · rw [after_eq host host' setup fuel session s s', Host.performAll_logged he]
  · rw [after_eq Host.trace host' setup fuel session a s', Host.toList_performAll_trace]

/-- A run after one that failed. -/
theorem runs_isolated_after_fault :
    let session : Session :=
      [(.ofLines ["ECHO 0", "VAR x", "LOG a", "ADD"], ⟨"T", []⟩), (.ofLines ["LOG b"], ⟨"T", []⟩)]
    let results := session.run Host.trace {} 5 #[.clear]
    results.map Progress.error? = [some ⟨4, "ADD", .argumentCount 0⟩, none] ∧
      (results.map Progress.outcome = session.map fun (p, invocation) =>
        (p.resume Recorder.host 5 (.start {} invocation {})).outcome) ∧
      session.after Host.trace {} 5 #[.clear] =
        Host.trace.performAll ((session.calls Recorder.host {} 5 {}).map Call.logged)
          #[.clear] := by
  intro session results
  obtain ⟨ho, -, -, -, -, hl, -⟩ :=
    runs_isolated Host.trace Recorder.host {} 5 session #[.clear] {}
  exact ⟨by decide +kernel, ho, hl rfl⟩

end Session

end SimpleBatch
