import SimpleBatch.Proofs.Calls

/-!
# The course of a run

A host takes calls and gives nothing back, and echoing is nothing but calls. So
what else there is in a run takes its course without regard to them: its
memory, its generator, the lines that it visits and how it ends
(`Run.course`, `Progress.outcome`).

Two runs are *alike* if they agree in all this (`Run.Alike`); whether they also
have to agree in their switches for echoing is a parameter, as a visit keeps
the two switches as they are or sets them to the same. The hosts may be any
two. So may the programs, as far as their lines only differ in the case of a
keyword (`Program.Alike`). Runs that are alike stay alike, visit by visit:

* `Run.Alike.resume_of_alike`: they come to the same, also in programs that are
  alike, and `Run.Alike.resume` in one program;
* `Run.Alike.collect`: and leave the same behind, where this depends on nothing
  else;
* `Run.Alike.calls_eq`: with the same echoing, they make the same calls.
-/

namespace SimpleBatch

variable {σ τ : Type}

/-- What a run is besides its host and its switch for echoing. -/
structure Course where
  memory : Memory
  generator : Generator
  index : Nat
  visited : Nat
deriving DecidableEq, Repr

/-- The course of a run. -/
def Run.course (r : Run σ) : Course where
  memory := r.machine.memory
  generator := r.machine.generator
  index := r.index
  visited := r.visited

/-- What has become of the course of a run. -/
inductive Outcome where
  /-- There are more lines to visit. -/
  | running (c : Course)
  /-- The run has ended. -/
  | finished (c : Course)
  /-- The run has ended in a fault. -/
  | failed (e : ScriptError) (c : Course)
deriving DecidableEq, Repr

/-- What a run has come to, besides its host and its switch for echoing. -/
def Progress.outcome : Progress σ → Outcome
  | running r => .running r.course
  | finished r => .finished r.course
  | failed e r => .failed e r.course

/-! ## Runs that are alike -/

variable {E : Bool → Bool → Prop}

variable (E) in
/-- Two machines with the same memory and generator, and with switches for
    echoing that are related by `E`. -/
structure Machine.Alike (m : Machine σ) (m' : Machine τ) : Prop where
  memory : m.memory = m'.memory
  generator : m.generator = m'.generator
  echo : E m.echo m'.echo

variable (E) in
/-- Two runs of the same course, with switches for echoing that are related by
    `E`. -/
structure Run.Alike (r : Run σ) (r' : Run τ) : Prop where
  machine : r.machine.Alike E r'.machine
  index : r.index = r'.index
  visited : r.visited = r'.visited

variable (E) in
/-- Two runs have come to the same. -/
inductive Progress.Alike : Progress σ → Progress τ → Prop
  | running {r : Run σ} {r' : Run τ} : r.Alike E r' → Alike (.running r) (.running r')
  | finished {r : Run σ} {r' : Run τ} : r.Alike E r' → Alike (.finished r) (.finished r')
  | failed {e : ScriptError} {r : Run σ} {r' : Run τ} : r.Alike E r' →
    Alike (.failed e r) (.failed e r')

theorem Run.Alike.course {r : Run σ} {r' : Run τ} (h : r.Alike E r') : r.course = r'.course := by
  rw [Run.course, Run.course, h.machine.memory, h.machine.generator, h.index, h.visited]

/-- Runs of the same course are alike, whatever their switches. -/
theorem Run.alike_of_course {r : Run σ} {r' : Run τ} (h : r.course = r'.course) :
    r.Alike (fun _ _ => True) r' := by
  obtain ⟨hm, hg, hi, hv⟩ := Course.mk.inj h
  exact ⟨⟨hm, hg, trivial⟩, hi, hv⟩

theorem Run.alike_start (setup : Setup) (invocation : Invocation) (s : σ) (s' : τ) :
    (start setup invocation s).Alike Eq (start setup invocation s') :=
  ⟨⟨rfl, rfl, rfl⟩, rfl, rfl⟩

theorem Progress.Alike.outcome {x : Progress σ} {x' : Progress τ} (h : x.Alike E x') :
    x.outcome = x'.outcome := by
  cases h with
  | running hr => exact congrArg Outcome.running hr.course
  | finished hr => exact congrArg Outcome.finished hr.course
  | failed hr => exact congrArg (Outcome.failed _) hr.course

theorem Progress.Alike.ended {x : Progress σ} {x' : Progress τ} (h : x.Alike E x')
    (hx : x.Ended) : x'.Ended := by
  cases h with
  | running => exact absurd rfl (hx _)
  | finished | failed => exact nofun

/-! ## Programs that are alike -/

/-- Two lines with the same tokens, and with the same keyword but for the case of
    its letters. -/
structure Line.Alike (line line' : Line) : Prop where
  keyword : line.keyword.map Char.toUpper = line'.keyword.map Char.toUpper
  tokens : line.tokens = line'.tokens

theorem Line.Alike.refl (line : Line) : line.Alike line :=
  ⟨rfl, rfl⟩

theorem Line.Alike.args {line line' : Line} (h : line.Alike line') : line.args = line'.args :=
  congrArg (List.map Value.ofToken) h.tokens

/-- Two lines of a program of which neither is a command, or that are alike; with
    the same command. -/
structure Entry.Alike (entry entry' : Entry) : Prop where
  line : Option.Rel Line.Alike entry.line? entry'.line?
  command : entry.command? = entry'.command?

theorem Entry.Alike.refl (entry : Entry) : entry.Alike entry := by
  refine ⟨?_, rfl⟩
  cases entry.line? with
  | none => exact .none
  | some line => exact .some (.refl line)

theorem Entry.Alike.line_of_none {entry entry' : Entry} (h : entry.Alike entry')
    (hl : entry.line? = none) : entry'.line? = none := by
  have hr := h.line
  rw [hl] at hr
  generalize entry'.line? = line'? at hr ⊢
  cases hr
  rfl

theorem Entry.Alike.line_of_some {entry entry' : Entry} (h : entry.Alike entry') {line : Line}
    (hl : entry.line? = some line) : ∃ line', entry'.line? = some line' ∧ line.Alike line' := by
  have hr := h.line
  rw [hl] at hr
  generalize entry'.line? = line'? at hr ⊢
  cases hr with
  | some hk => exact ⟨_, rfl, hk⟩

/-- Two programs whose lines are alike, one by one. -/
def Program.Alike (p q : Program) : Prop :=
  ∀ i : Nat, Option.Rel Entry.Alike p.entries[i]? q.entries[i]?

namespace Program.Alike

variable {p q : Program}

theorem refl (p : Program) : p.Alike p := by
  intro i
  cases p.entries[i]? with
  | none => exact .none
  | some entry => exact .some (.refl entry)

variable (h : p.Alike q)

include h

theorem entry_of_none {i : Nat} (he : p.entries[i]? = none) : q.entries[i]? = none := by
  have hr := h i
  rw [he] at hr
  generalize q.entries[i]? = entry'? at hr ⊢
  cases hr
  rfl

theorem entry_of_some {i : Nat} {entry : Entry} (he : p.entries[i]? = some entry) :
    ∃ entry', q.entries[i]? = some entry' ∧ entry.Alike entry' := by
  have hr := h i
  rw [he] at hr
  generalize q.entries[i]? = entry'? at hr ⊢
  cases hr with
  | some ha => exact ⟨_, rfl, ha⟩

theorem size_eq : p.size = q.size := by
  have hi : ∀ i : Nat, p.entries[i]? = none ↔ q.entries[i]? = none := by
    intro i
    refine ⟨h.entry_of_none, fun hq => ?_⟩
    cases he : p.entries[i]? with
    | none => rfl
    | some entry =>
      obtain ⟨entry', he', -⟩ := h.entry_of_some he
      rw [hq] at he'
      cases he'
  have hp := Array.getElem?_eq_none_iff.1 ((hi q.size).2 Array.getElem?_size)
  have hq := Array.getElem?_eq_none_iff.1 ((hi p.size).1 Array.getElem?_size)
  exact Nat.le_antisymm hp hq

theorem command?_eq (i : Nat) : p.command? i = q.command? i := by
  rw [command?, command?]
  cases he : p.entries[i]? with
  | none => rw [h.entry_of_none he]
  | some entry =>
    obtain ⟨entry', he', ha⟩ := h.entry_of_some he
    rw [he']
    exact ha.command

theorem endIfAfter?_eq (i : Nat) : p.endIfAfter? i = q.endIfAfter? i := by
  simp only [endIfAfter?, h.size_eq, h.command?_eq]

/-- The labels are the same, being tokens. -/
theorem labels_eq : p.labels = q.labels := by
  rw [labels, labels, h.size_eq]
  congr 1
  funext i
  rw [h.command?_eq, line?, line?]
  cases he : p.entries[i]? with
  | none => rw [h.entry_of_none he]
  | some entry =>
    obtain ⟨entry', he', ha⟩ := h.entry_of_some he
    simp only [he', Option.bind_some]
    cases hl : entry.line? with
    | none => rw [ha.line_of_none hl]
    | some line =>
      obtain ⟨line', hl', hk⟩ := ha.line_of_some hl
      simp only [hl', Option.bind_some, hk.tokens]

/-- So every action has the same effect. -/
theorem effect_eq (i : Nat) (args : List Value) (m : Memory) (g : Generator) (a : Action) :
    a.effect p i args m g = a.effect q i args m g := by
  cases a with
  | condition => simp only [Action.effect, h.endIfAfter?_eq]
  | jump => simp only [Action.effect, h.labels_eq]
  | _ => rfl

end Program.Alike

/-! ## Visits -/

section Visits

variable (host : Host σ) (host' : Host τ) {p q : Program}

/-- After the same effect, machines are alike: it leaves both switches as they
    are, or sets them to the same. -/
theorem Machine.Alike.apply {m : Machine σ} {m' : Machine τ} (hE : ∀ on, E on on)
    (h : m.Alike E m') (e : Effect) : (e.apply host m).Alike E (e.apply host' m') := by
  cases e with
  | none => exact h
  | write memory => exact ⟨rfl, h.generator, h.echo⟩
  | draw memory generator => exact ⟨rfl, rfl, h.echo⟩
  | setEcho on => exact ⟨h.memory, h.generator, hE on⟩
  | call c => exact ⟨h.memory, h.generator, h.echo⟩

/-- A call makes no difference, whatever it is. -/
theorem Machine.Alike.called {m : Machine σ} {m' : Machine τ} (h : m.Alike E m') (c c' : Call) :
    (Effect.apply host m (.call c)).Alike E (Effect.apply host' m' (.call c')) :=
  ⟨h.memory, h.generator, h.echo⟩

/-- Nor does an echo. -/
theorem Machine.Alike.echoed {m : Machine σ} {m' : Machine τ} (h : m.Alike E m')
    (line line' : Line) : (m.echoed host line).Alike E (m'.echoed host' line') := by
  unfold Machine.echoed
  split <;> split <;> exact ⟨h.memory, h.generator, h.echo⟩

theorem Run.Alike.follow {r : Run σ} {r' : Run τ} (h : r.Alike E r') (flow : Flow) :
    Progress.Alike E (r.follow flow) (r'.follow flow) := by
  cases flow with
  | next => exact .running ⟨h.machine, congrArg (· + 1) h.index, h.visited⟩
  | after i => exact .running ⟨h.machine, rfl, h.visited⟩
  | halt => exact .finished h

/-- Runs that are alike are alike after visits of lines that are alike. -/
theorem Run.Alike.visit {r : Run σ} {r' : Run τ} (hE : ∀ on, E on on) (hp : p.Alike q)
    (h : r.Alike E r') {entry entry' : Entry} (he : entry.Alike entry') {x : Progress σ}
    (hv : p.Visit host r entry x) :
    ∃ x', q.Visit host' r' entry' x' ∧ Progress.Alike E x x' := by
  have hvisited : r.visited + 1 = r'.visited + 1 := congrArg (· + 1) h.visited
  have hindex : r.index + 1 = r'.index + 1 := congrArg (· + 1) h.index
  cases hv with
  | blank hl =>
    exact ⟨_, .blank (he.line_of_none hl), .running ⟨h.machine, hindex, hvisited⟩⟩
  | unknown hl hc =>
    obtain ⟨line', hl', -⟩ := he.line_of_some hl
    exact ⟨_, .unknown hl' (he.command ▸ hc),
      .running ⟨h.machine.called host host' _ _, hindex, hvisited⟩⟩
  | command hl hc hf =>
    obtain ⟨line', hl', ha⟩ := he.line_of_some hl
    rw [hp.effect_eq, ha.args, h.index, h.machine.memory, h.machine.generator] at hf
    refine ⟨_, .command hl' (he.command ▸ hc) hf, Run.Alike.follow ?_ _⟩
    exact ⟨(h.machine.apply host host' hE _).echoed host host' _ _, h.index, hvisited⟩
  | fault hl hc hf =>
    obtain ⟨line', hl', ha⟩ := he.line_of_some hl
    rw [hp.effect_eq, ha.args, h.index, h.machine.memory, h.machine.generator] at hf
    refine ⟨_, .fault hl' (he.command ▸ hc) hf, ?_⟩
    rw [h.index, ha.keyword, ha.args, h.machine.memory, h.machine.generator]
    exact .failed ⟨⟨h.machine.memory, rfl, h.machine.echo⟩, rfl, hvisited⟩

end Visits

/-! ## Runs -/

section Runs

variable {p q : Program} {r : Run σ} {r' : Run τ}

/-- Runs that are alike, of programs that are alike, come to the same. -/
theorem Run.Alike.resume_of_alike (host : Host σ) (host' : Host τ) (hE : ∀ on, E on on)
    (hp : p.Alike q) (h : r.Alike E r') (fuel : Nat) :
    Progress.Alike E (p.resume host fuel r) (q.resume host' fuel r') := by
  induction fuel, r using Program.run_induction host p generalizing r' with
  | zero r => exact .running h
  | past fuel r he =>
    have he' : q.entries[r'.index]? = none := h.index ▸ hp.entry_of_none he
    rw [Program.resume_of_none he, Program.resume_of_none he']
    exact .finished h
  | running fuel r entry r₁ he hv ih =>
    obtain ⟨entry', he', hentry⟩ := hp.entry_of_some he
    rw [h.index] at he'
    obtain ⟨_, hv', hx⟩ := h.visit host host' hE hp hentry hv
    cases hx with
    | running h₁ =>
      rw [Program.resume_of_running he hv, Program.resume_of_running he' hv']
      exact ih h₁
  | ended fuel r entry x he hv hx =>
    obtain ⟨entry', he', hentry⟩ := hp.entry_of_some he
    rw [h.index] at he'
    obtain ⟨x', hv', ha⟩ := h.visit host host' hE hp hentry hv
    rw [Program.resume_of_ended he hv hx, Program.resume_of_ended he' hv' (ha.ended hx)]
    exact ha

theorem Run.Alike.resume (host : Host σ) (host' : Host τ) (hE : ∀ on, E on on)
    (h : r.Alike E r') (fuel : Nat) :
    Progress.Alike E (p.resume host fuel r) (p.resume host' fuel r') :=
  h.resume_of_alike host host' hE (.refl p) fuel

/-- And leave the same behind, if visits of runs that are alike do. -/
theorem Run.Alike.collect {α : Type} {f : Run σ → Entry → List α} {f' : Run τ → Entry → List α}
    (host : Host σ) (host' : Host τ) (hE : ∀ on, E on on)
    (hf : ∀ (r : Run σ) (r' : Run τ) entry, r.Alike E r' → f r entry = f' r' entry)
    (h : r.Alike E r') (fuel : Nat) :
    p.collect host f fuel r = p.collect host' f' fuel r' := by
  induction fuel, r using Program.run_induction host p generalizing r' with
  | zero r => rfl
  | past fuel r he =>
    have he' : p.entries[r'.index]? = none := h.index ▸ he
    rw [Program.collect_of_none _ he, Program.collect_of_none _ he']
  | running fuel r entry r₁ he hv ih =>
    have he' : p.entries[r'.index]? = some entry := h.index ▸ he
    obtain ⟨_, hv', hx⟩ := h.visit host host' hE (.refl p) (.refl entry) hv
    cases hx with
    | running h₁ =>
      rw [Program.collect_of_running _ he hv, Program.collect_of_running _ he' hv',
        hf r r' entry h, ih h₁]
  | ended fuel r entry x he hv hx =>
    have he' : p.entries[r'.index]? = some entry := h.index ▸ he
    obtain ⟨x', hv', ha⟩ := h.visit host host' hE (.refl p) (.refl entry) hv
    rw [Program.collect_of_ended _ he hv hx, Program.collect_of_ended _ he' hv' (ha.ended hx),
      hf r r' entry h]

/-- With the same echoing, they make the same calls. -/
theorem Run.Alike.calls_eq (host : Host σ) (host' : Host τ) (h : r.Alike Eq r') (fuel : Nat) :
    p.calls host fuel r = p.calls host' fuel r' := by
  refine h.collect host host' (fun _ => rfl) (fun r r' entry h => ?_) fuel
  simp only [Program.callsAt, h.index, h.machine.memory, h.machine.generator, h.machine.echo]

end Runs

end SimpleBatch
