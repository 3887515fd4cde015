import SimpleBatch.Proofs.Visit

/-!
# Calls to the host

The calls that a run makes to its host, in order (`Program.calls`): those of
each line that it visits, one after another. A command makes the call of its
effect, if it has one, and is echoed after it if echoing is on then; an unknown
keyword is reported; no other line makes a call (`Program.callsAt`).

These are all the calls: whatever the host, its state after a run is what they
make of its state before (`Program.host_resume`).
-/

namespace SimpleBatch

variable {σ : Type}

/-- The state of a host after calls, in their order. -/
def Host.performAll (host : Host σ) (calls : List Call) (s : σ) : σ :=
  calls.foldl (fun s c => host.perform c s) s

theorem Host.performAll_append (host : Host σ) (l₁ l₂ : List Call) (s : σ) :
    host.performAll (l₁ ++ l₂) s = host.performAll l₂ (host.performAll l₁ s) :=
  List.foldl_append

namespace Effect

/-- The calls of an effect. -/
def calls : Effect → List Call
  | call c => [c]
  | _ => []

/-- Whether echoing is on after an effect. -/
def echo (on : Bool) : Effect → Bool
  | setEcho on => on
  | _ => on

theorem host_apply (host : Host σ) (m : Machine σ) (e : Effect) :
    (e.apply host m).host = host.performAll e.calls m.host := by
  cases e <;> rfl

theorem echo_apply (host : Host σ) (m : Machine σ) (e : Effect) :
    (e.apply host m).echo = e.echo m.echo := by
  cases e <;> rfl

end Effect

namespace Program

/-- The calls that a run makes in a visit of a line. -/
def callsAt (p : Program) (r : Run σ) (entry : Entry) : List Call :=
  match entry.line? with
  | none => []
  | some line =>
    match entry.command? with
    | none => [.log .error (Command.unknownMessage line.keyword ++ ".")]
    | some command =>
      match command.action.effect p r.index line.args r.machine.memory r.machine.generator with
      | .ok (e, _) =>
        if e.echo r.machine.echo then
          e.calls ++ [.echo (Machine.echoLine line.keyword line.args)]
        else e.calls
      | .error _ => []

/-- The calls that a run makes, in order, in at most `fuel` visits. -/
def calls (host : Host σ) (p : Program) (fuel : Nat) (r : Run σ) : List Call :=
  p.collect host p.callsAt fuel r

variable {host : Host σ} {p : Program}

/-- The host has received the calls of a visit, and no others. -/
theorem Visit.host_eq {r : Run σ} {entry : Entry} {x : Progress σ} (h : p.Visit host r entry x) :
    x.run.machine.host = host.performAll (p.callsAt r entry) r.machine.host := by
  cases h with
  | blank hl => rw [callsAt, hl]; rfl
  | unknown hl hc => simp only [callsAt, hl, hc]; rfl
  | command hl hc he =>
    simp only [callsAt, hl, hc, he, Run.run_follow_machine, Machine.echoed, Effect.echo_apply]
    split
    · rw [Host.performAll_append, ← Effect.host_apply]
      rfl
    · exact Effect.host_apply host r.machine _
  | fault hl hc he => simp only [callsAt, hl, hc, he]; rfl

variable (host p) in
/-- The state of a host after a run is what the calls of the run make of its
    state before. -/
theorem host_resume (fuel : Nat) (r : Run σ) :
    (p.resume host fuel r).run.machine.host =
      host.performAll (p.calls host fuel r) r.machine.host := by
  induction fuel, r using run_induction host p with
  | zero r => rfl
  | past fuel r he => rw [resume_of_none he, calls, collect_of_none _ he]; rfl
  | running fuel r entry r' he hv ih =>
    rw [resume_of_running he hv, calls, collect_of_running _ he hv, Host.performAll_append,
      ← hv.host_eq, ih]
    rfl
  | ended fuel r entry x he hv hx =>
    rw [resume_of_ended he hv hx, calls, collect_of_ended _ he hv hx, ← hv.host_eq]

end Program

end SimpleBatch
