import SimpleBatch.Proofs.Effect
import SimpleBatch.Run

/-!
# Runs, visit by visit

A visit of a line comes to one of four things (`Program.Visit`): a line that is
no command is passed over, an unknown keyword is reported, a command has its
effect and is echoed, or it ends the run in a fault. Whatever holds of every
run is proved of these four cases, and carried along the run by one induction
(`Program.run_induction`).

* `Program.visit_iff`: the four cases are what a visit does, and all it does;
* `Program.resume_invariant`: what every visit keeps holds wherever a run comes
  to;
* `Program.exists_of_resume_ended`, `Program.resume_eq_of_le`: a run ends at some
  place, and in the same way if more visits are allowed;
* `Program.Diverges`: a run that never ends;
* `Program.collect`: what the visits of a run leave behind, one after another;
  for one, the lines that it visits (`Program.path`), as many as it counts
  (`Program.visited_resume`).
-/

namespace SimpleBatch

variable {σ : Type}

/-- The run that has come to a progress, ended or not. -/
def Progress.run : Progress σ → Run σ
  | running r => r
  | finished r => r
  | failed _ r => r

/-- A run has ended, in a fault or without one. -/
def Progress.Ended (x : Progress σ) : Prop :=
  ∀ r, x ≠ .running r

/-- The fault in which a run has ended. -/
def Progress.error? : Progress σ → Option ScriptError
  | failed e _ => some e
  | _ => none

theorem Progress.exists_of_error? {x : Progress σ} {e : ScriptError} (h : x.error? = some e) :
    ∃ r, x = .failed e r := by
  cases x with
  | running r => cases h
  | finished r => cases h
  | failed e' r =>
    cases h
    exact ⟨r, rfl⟩

/-- What becomes of a run after a command, by the flow that it gives. -/
def Run.follow (r : Run σ) : Flow → Progress σ
  | .next => .running { r with index := r.index + 1 }
  | .after i => .running { r with index := i + 1 }
  | .halt => .finished r

@[simp]
theorem Run.run_follow_machine (r : Run σ) (flow : Flow) :
    (r.follow flow).run.machine = r.machine := by
  cases flow <;> rfl

@[simp]
theorem Run.run_follow_visited (r : Run σ) (flow : Flow) :
    (r.follow flow).run.visited = r.visited := by
  cases flow <;> rfl

namespace Program

/-! ## Visits -/

/-- What the visit of a line by a run comes to. -/
inductive Visit (host : Host σ) (p : Program) (r : Run σ) (entry : Entry) : Progress σ → Prop
  /-- A line that is no command is passed over. -/
  | blank : entry.line? = none →
    Visit host p r entry (.running { r with index := r.index + 1, visited := r.visited + 1 })
  /-- A keyword that belongs to no command is reported. -/
  | unknown {line : Line} : entry.line? = some line → entry.command? = none →
    Visit host p r entry (.running
      { machine := Effect.apply host r.machine
          (.call (.log .error (Command.unknownMessage line.keyword ++ ".")))
        index := r.index + 1
        visited := r.visited + 1 })
  /-- A command has its effect, and is echoed. -/
  | command {line : Line} {command : Command} {e : Effect} {flow : Flow} :
    entry.line? = some line → entry.command? = some command →
    command.action.effect p r.index line.args r.machine.memory r.machine.generator =
      .ok (e, flow) →
    Visit host p r entry (Run.follow
      { r with
        machine := (e.apply host r.machine).echoed host line
        visited := r.visited + 1 } flow)
  /-- A command ends in a fault. -/
  | fault {line : Line} {command : Command} {fault : Fault} :
    entry.line? = some line → entry.command? = some command →
    command.action.effect p r.index line.args r.machine.memory r.machine.generator =
      .error fault →
    Visit host p r entry (.failed
      { line := r.index + 1, command := line.keyword.map Char.toUpper, fault }
      { r with
        machine := { r.machine with
          generator := command.action.spent line.args r.machine.memory r.machine.generator }
        visited := r.visited + 1 })

variable (host : Host σ) (p : Program)

theorem visit_spec (r : Run σ) (entry : Entry) : p.Visit host r entry (p.visit host r entry) := by
  cases hl : entry.line? with
  | none =>
    rw [visit, hl]
    exact .blank hl
  | some line =>
    cases hc : entry.command? with
    | none =>
      simp only [visit, hl, hc, Machine.execute_none]
      exact .unknown hl hc
    | some command =>
      simp only [visit, hl, hc, Machine.execute_some]
      cases he : command.action.effect p r.index line.args r.machine.memory r.machine.generator with
      | error fault => exact .fault hl hc he
      | ok result =>
        obtain ⟨e, flow⟩ := result
        cases flow <;> exact .command hl hc he

variable {host p}

/-- The four cases exclude each other. -/
theorem Visit.unique {r : Run σ} {entry : Entry} {x y : Progress σ}
    (hx : p.Visit host r entry x) (hy : p.Visit host r entry y) : x = y := by
  cases hx <;> cases hy <;> simp_all

/-- The four cases are what a visit does. -/
theorem visit_iff {r : Run σ} {entry : Entry} {x : Progress σ} :
    p.visit host r entry = x ↔ p.Visit host r entry x :=
  ⟨fun h => h ▸ visit_spec host p r entry, fun h => (visit_spec host p r entry).unique h⟩

/-- A visit is counted. -/
theorem Visit.visited {r : Run σ} {entry : Entry} {x : Progress σ} (h : p.Visit host r entry x) :
    x.run.visited = r.visited + 1 := by
  cases h with
  | blank => rfl
  | unknown => rfl
  | command => rw [Run.run_follow_visited]
  | fault => rfl

/-! ## Runs -/

theorem lt_size_of_some {i : Nat} {entry : Entry} (h : p.entries[i]? = some entry) : i < p.size :=
  (Array.getElem?_eq_some_iff.1 h).1

theorem entries_ofLines (lines : List String) (k : Nat) :
    (ofLines lines).entries[k]? = lines[k]?.map Entry.ofSource := by
  simp [ofLines]

theorem line?_of_some {i : Nat} {entry : Entry} (h : p.entries[i]? = some entry) :
    p.line? i = entry.line? := by
  rw [line?, h]
  rfl

theorem command?_of_some {i : Nat} {entry : Entry} (h : p.entries[i]? = some entry) :
    p.command? i = entry.command? := by
  rw [command?, h]
  rfl

theorem advance_of_none {r : Run σ} (he : p.entries[r.index]? = none) :
    p.advance host r = .finished r := by
  rw [advance, he]

/-- A run at a line visits it. -/
theorem advance_iff {r : Run σ} {entry : Entry} {x : Progress σ}
    (he : p.entries[r.index]? = some entry) : p.advance host r = x ↔ p.Visit host r entry x := by
  rw [advance, he]
  exact visit_iff

/-- A run past the last line has ended. -/
theorem resume_of_none {fuel : Nat} {r : Run σ} (he : p.entries[r.index]? = none) :
    p.resume host (fuel + 1) r = .finished r := by
  rw [resume, advance, he]

theorem resume_of_running {fuel : Nat} {r r' : Run σ} {entry : Entry}
    (he : p.entries[r.index]? = some entry) (hv : p.Visit host r entry (.running r')) :
    p.resume host (fuel + 1) r = p.resume host fuel r' := by
  simp only [resume, advance, he, visit_iff.2 hv]

theorem resume_of_ended {fuel : Nat} {r : Run σ} {entry : Entry} {x : Progress σ}
    (he : p.entries[r.index]? = some entry) (hv : p.Visit host r entry x) (hx : x.Ended) :
    p.resume host (fuel + 1) r = x := by
  simp only [resume, advance, he, visit_iff.2 hv]
  cases x with
  | running r' => exact absurd rfl (hx r')
  | finished r' => rfl
  | failed e r' => rfl

variable (host p) in
/-- Induction along a run: no visit is allowed, the run is past the last line,
    or it visits a line and goes on or ends there. -/
@[elab_as_elim]
theorem run_induction {motive : Nat → Run σ → Prop} (zero : ∀ r, motive 0 r)
    (past : ∀ fuel r, p.entries[r.index]? = none → motive (fuel + 1) r)
    (running : ∀ fuel r entry r', p.entries[r.index]? = some entry →
      p.Visit host r entry (.running r') → motive fuel r' → motive (fuel + 1) r)
    (ended : ∀ fuel r entry x, p.entries[r.index]? = some entry →
      p.Visit host r entry x → x.Ended → motive (fuel + 1) r)
    (fuel : Nat) (r : Run σ) : motive fuel r := by
  induction fuel generalizing r with
  | zero => exact zero r
  | succ fuel ih =>
    cases he : p.entries[r.index]? with
    | none => exact past fuel r he
    | some entry =>
      cases hv : p.visit host r entry with
      | running r' => exact running fuel r entry r' he (visit_iff.1 hv) (ih r')
      | finished r' => exact ended fuel r entry _ he (visit_iff.1 hv) nofun
      | failed e r' => exact ended fuel r entry _ he (visit_iff.1 hv) nofun

/-- A run may be cut at any number of visits. -/
theorem resume_add_of_running {m : Nat} (n : Nat) {r r' : Run σ}
    (h : p.resume host m r = .running r') : p.resume host (m + n) r = p.resume host n r' := by
  induction m, r using run_induction host p with
  | zero r => cases h; rw [Nat.zero_add]
  | past m r he => rw [resume_of_none he] at h; cases h
  | running m r entry r₁ he hv ih =>
    rw [resume_of_running he hv] at h
    rw [Nat.succ_add, resume_of_running he hv, ih h]
  | ended m r entry x he hv hx =>
    rw [resume_of_ended he hv hx] at h
    exact absurd h (hx r')

/-- A run that can go on after some visits could do so after fewer. -/
theorem exists_running_of_le {m n : Nat} {r r' : Run σ} (h : m ≤ n)
    (hr : p.resume host n r = .running r') : ∃ r₁, p.resume host m r = .running r₁ := by
  obtain ⟨d, rfl⟩ := Nat.exists_eq_add_of_le h
  clear h
  induction m, r using run_induction host p with
  | zero r => exact ⟨r, rfl⟩
  | past m r he => rw [Nat.succ_add, resume_of_none he] at hr; cases hr
  | running m r entry r₁ he hv ih =>
    rw [Nat.succ_add, resume_of_running he hv] at hr
    rw [resume_of_running he hv]
    exact ih hr
  | ended m r entry x he hv hx =>
    rw [Nat.succ_add, resume_of_ended he hv hx] at hr
    exact absurd hr (hx r')

/-- What holds of a run and is kept by every visit holds wherever the run
    comes to, also in a fault. -/
theorem resume_invariant {P : Run σ → Prop}
    (step : ∀ {r entry x}, p.entries[r.index]? = some entry → p.Visit host r entry x →
      P r → P x.run)
    (fuel : Nat) {r : Run σ} (hr : P r) : P (p.resume host fuel r).run := by
  induction fuel, r using run_induction host p with
  | zero r => exact hr
  | past fuel r he => rw [resume_of_none he]; exact hr
  | running fuel r entry r' he hv ih => rw [resume_of_running he hv]; exact ih (step he hv hr)
  | ended fuel r entry x he hv hx => rw [resume_of_ended he hv hx]; exact step he hv hr

/-- A run that has ended did so at some place, after visits from which it could
    go on. -/
theorem exists_of_resume_ended {fuel : Nat} {r : Run σ} {x : Progress σ}
    (h : p.resume host fuel r = x) (hx : x.Ended) :
    ∃ n r₀, n < fuel ∧ p.resume host n r = .running r₀ ∧ p.advance host r₀ = x := by
  induction fuel, r using run_induction host p with
  | zero r => exact absurd h.symm (hx r)
  | past fuel r he =>
    rw [resume_of_none he] at h
    exact ⟨0, r, Nat.succ_pos _, rfl, (advance_of_none he).trans h⟩
  | running fuel r entry r₁ he hv ih =>
    rw [resume_of_running he hv] at h
    obtain ⟨n, r₀, hn, hr₀, ha⟩ := ih h
    exact ⟨n + 1, r₀, Nat.succ_lt_succ hn, (resume_of_running he hv).trans hr₀, ha⟩
  | ended fuel r entry y he hv hy =>
    rw [resume_of_ended he hv hy] at h
    exact ⟨0, r, Nat.succ_pos _, rfl, ((advance_iff he).2 hv).trans h⟩

/-- If that was in a fault, then it was in a visit of the line it was at. -/
theorem exists_of_resume_failed {fuel : Nat} {r r' : Run σ} {e : ScriptError}
    (h : p.resume host fuel r = .failed e r') :
    ∃ n r₀ entry, p.resume host n r = .running r₀ ∧ p.entries[r₀.index]? = some entry ∧
      p.Visit host r₀ entry (.failed e r') := by
  obtain ⟨n, r₀, -, hr₀, ha⟩ := exists_of_resume_ended h nofun
  cases he : p.entries[r₀.index]? with
  | none => rw [advance_of_none he] at ha; cases ha
  | some entry => exact ⟨n, r₀, entry, hr₀, he, (advance_iff he).1 ha⟩

/-- A run that ends where it has come to ends there with every number of visits
    that is allowed besides. -/
theorem resume_of_advance {n fuel : Nat} {r r₀ : Run σ} {x : Progress σ} (hn : n < fuel)
    (hr₀ : p.resume host n r = .running r₀) (ha : p.advance host r₀ = x) (hx : x.Ended) :
    p.resume host fuel r = x := by
  obtain ⟨d, rfl⟩ := Nat.exists_eq_add_of_lt hn
  rw [Nat.add_assoc, resume_add_of_running _ hr₀, resume, ha]
  cases x with
  | running r' => exact absurd rfl (hx r')
  | finished r' => rfl
  | failed e r' => rfl

/-- A run that has ended has come to the same with more visits allowed. -/
theorem resume_eq_of_le {n fuel : Nat} {r : Run σ} (hx : (p.resume host n r).Ended)
    (h : n ≤ fuel) : p.resume host fuel r = p.resume host n r := by
  obtain ⟨k, r₀, hk, hr₀, ha⟩ := exists_of_resume_ended rfl hx
  exact resume_of_advance (Nat.lt_of_lt_of_le hk h) hr₀ ha hx

theorem resume_succ_of_advance {n : Nat} {r₀ r : Run σ} {x : Progress σ}
    (hr : p.resume host n r₀ = .running r) (ha : p.advance host r = x) :
    p.resume host (n + 1) r₀ = x := by
  rw [resume_add_of_running 1 hr, resume, ha]
  cases x <;> rfl

/-- A run that can go on has made all of the visits it was allowed. -/
theorem visited_of_resume_running {n : Nat} {r r' : Run σ} (h : p.resume host n r = .running r') :
    r'.visited = r.visited + n := by
  induction n, r using run_induction host p with
  | zero r => cases h; rfl
  | past n r he => rw [resume_of_none he] at h; cases h
  | running n r entry r₁ he hv ih =>
    have hr₁ : r₁.visited = r.visited + 1 := hv.visited
    rw [resume_of_running he hv] at h
    rw [ih h, hr₁]
    omega
  | ended n r entry x he hv hx =>
    rw [resume_of_ended he hv hx] at h
    exact absurd h (hx r')

variable (host p) in
/-- The run never ends. -/
def Diverges (r : Run σ) : Prop :=
  ∀ fuel, ∃ r', p.resume host fuel r = .running r'

/-! ## What a run leaves behind -/

section Collect

variable {α : Type} (f : Run σ → Entry → List α)

variable (host p) in
/-- The lists that `f` gives for the visits of a run, one after another, in at
    most `fuel` visits. -/
def collect : (fuel : Nat) → Run σ → List α
  | 0, _ => []
  | fuel + 1, r =>
    match p.entries[r.index]? with
    | none => []
    | some entry =>
      f r entry ++
        match p.visit host r entry with
        | .running r' => collect fuel r'
        | _ => []

theorem collect_of_none {fuel : Nat} {r : Run σ} (he : p.entries[r.index]? = none) :
    p.collect host f (fuel + 1) r = [] := by
  rw [collect, he]

theorem collect_of_running {fuel : Nat} {r r' : Run σ} {entry : Entry}
    (he : p.entries[r.index]? = some entry) (hv : p.Visit host r entry (.running r')) :
    p.collect host f (fuel + 1) r = f r entry ++ p.collect host f fuel r' := by
  simp only [collect, he, visit_iff.2 hv]

theorem collect_of_ended {fuel : Nat} {r : Run σ} {entry : Entry} {x : Progress σ}
    (he : p.entries[r.index]? = some entry) (hv : p.Visit host r entry x) (hx : x.Ended) :
    p.collect host f (fuel + 1) r = f r entry := by
  simp only [collect, he, visit_iff.2 hv]
  cases x with
  | running r' => exact absurd rfl (hx r')
  | finished r' => exact List.append_nil _
  | failed e r' => exact List.append_nil _

/-- What a run leaves behind may be cut where the run is. -/
theorem collect_add_of_running {m : Nat} (n : Nat) {r r' : Run σ}
    (h : p.resume host m r = .running r') :
    p.collect host f (m + n) r = p.collect host f m r ++ p.collect host f n r' := by
  induction m, r using run_induction host p with
  | zero r => cases h; rw [Nat.zero_add]; rfl
  | past m r he => rw [resume_of_none he] at h; cases h
  | running m r entry r₁ he hv ih =>
    rw [resume_of_running he hv] at h
    rw [Nat.succ_add, collect_of_running _ he hv, collect_of_running _ he hv, ih h,
      List.append_assoc]
  | ended m r entry x he hv hx =>
    rw [resume_of_ended he hv hx] at h
    exact absurd h (hx r')

theorem filter_collect (q : α → Bool) (fuel : Nat) (r : Run σ) :
    (p.collect host f fuel r).filter q =
      p.collect host (fun r entry => (f r entry).filter q) fuel r := by
  induction fuel, r using run_induction host p with
  | zero r => rfl
  | past fuel r he => rw [collect_of_none _ he, collect_of_none _ he, List.filter_nil]
  | running fuel r entry r' he hv ih =>
    rw [collect_of_running _ he hv, collect_of_running _ he hv, List.filter_append, ih]
  | ended fuel r entry x he hv hx =>
    rw [collect_of_ended _ he hv hx, collect_of_ended _ he hv hx]

end Collect

variable (host p) in
/-- The indices of the lines that a run visits, in order, in at most `fuel`
    visits. -/
def path (fuel : Nat) (r : Run σ) : List Nat :=
  p.collect host (fun r _ => [r.index]) fuel r

/-- The lines that a run visits, cut at a line from which it goes on. -/
theorem path_of_advance {n : Nat} (more : Nat) {r₀ r r' : Run σ}
    (hr : p.resume host n r₀ = .running r) (hi : r.index < p.size)
    (ha : p.advance host r = .running r') :
    p.path host (n + 1 + more) r₀ = p.path host n r₀ ++ r.index :: p.path host more r' := by
  have he : p.entries[r.index]? = some p.entries[r.index] := Array.getElem?_eq_getElem hi
  rw [Nat.add_assoc, Nat.add_comm 1, path, collect_add_of_running _ _ hr,
    collect_of_running _ he ((advance_iff he).1 ha)]
  rfl

/-- A run counts the lines that it visits. -/
theorem visited_resume (fuel : Nat) (r : Run σ) :
    (p.resume host fuel r).run.visited = r.visited + (p.path host fuel r).length := by
  induction fuel, r using run_induction host p with
  | zero r => rfl
  | past fuel r he => rw [resume_of_none he, path, collect_of_none _ he]; rfl
  | running fuel r entry r' he hv ih =>
    have hr' : r'.visited = r.visited + 1 := hv.visited
    rw [resume_of_running he hv, path, collect_of_running _ he hv, ih, hr', path,
      List.length_append, List.length_singleton, Nat.add_assoc]
  | ended fuel r entry x he hv hx =>
    rw [resume_of_ended he hv hx, path, collect_of_ended _ he hv hx]
    exact hv.visited

end Program

end SimpleBatch
