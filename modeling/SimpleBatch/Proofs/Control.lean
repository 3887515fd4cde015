import SimpleBatch.Proofs.Visit

/-!
# The flow of control

Where a run goes after a line is a matter of the line, the memory and the
program; the rules are those of `Program.Leads`:

* a condition that is false leads past the first line after it that ends one,
  whatever other conditions begin in between (`Program.EndsAt`);
* a jump leads past the label that it finds (`Program.JumpsTo`);
* a command to quit leads nowhere;
* everything else leads to the next line, and so do a condition whose end is
  missing and a jump whose label is.

A visit that does not fail follows these rules (`Program.Visit.leads`), which
leave no choice (`Program.Leads.unique`). Each of them leads to a line of the
program or to its end (`Program.Leads.le_size`), so that is where a run always
is, and it can only end there or where it quits (`Program.control_flow`).
-/

namespace SimpleBatch

variable {σ : Type}

/-- The index of the line that a run goes on at. -/
def Progress.next? : Progress σ → Option Nat
  | running r => some r.index
  | finished _ => none
  | failed _ _ => none

/-! ## Ends of conditions and labels -/

/-- A label that is found is one of those that were searched. -/
theorem Memory.mem_of_findLabel {m : Memory} {target : String} {l : List (Nat × String)} {j : Nat}
    (h : m.findLabel target l = .ok (some j)) : ∃ token, (j, token) ∈ l := by
  induction l with
  | nil => cases h
  | cons label l ih =>
    obtain ⟨i, token⟩ := label
    obtain ⟨v, -, h⟩ := Fault.bind_eq_ok.1 h
    split at h
    · cases h
      exact ⟨token, List.mem_cons_self⟩
    · obtain ⟨token', ht⟩ := ih h
      exact ⟨token', List.mem_cons_of_mem _ ht⟩

namespace Program

variable {p : Program} {m : Memory} {i j : Nat}

theorem lt_size_of_command? {c : Command} (h : p.command? i = some c) : i < p.size := by
  obtain ⟨entry, he, -⟩ := Option.bind_eq_some_iff.1 h
  exact lt_size_of_some he

variable (p) in
/-- The first line after `i` that ends a condition is the one at `j`. -/
structure EndsAt (i j : Nat) : Prop where
  lt : i < j
  command : p.command? j = some .endIf
  first : ∀ k, i < k → k < j → p.command? k ≠ some .endIf

theorem EndsAt.unique {k : Nat} (hj : p.EndsAt i j) (hk : p.EndsAt i k) : j = k := by
  rcases Nat.lt_trichotomy j k with h | h | h
  · exact absurd hj.command (hk.first j hj.lt h)
  · exact h
  · exact absurd hk.command (hj.first k hk.lt h)

theorem endIfAfter?_eq_some : p.endIfAfter? i = some j ↔ p.EndsAt i j := by
  rw [endIfAfter?, List.find?_range_eq_some]
  constructor
  · rintro ⟨hj, -, hk⟩
    simp only [Bool.and_eq_true, decide_eq_true_eq] at hj
    refine ⟨hj.1, hj.2, fun k hik hkj hc => ?_⟩
    simpa [hik, hc] using hk k hkj
  · rintro ⟨hij, hj, hk⟩
    refine ⟨by simp [hij, hj], List.mem_range.2 (lt_size_of_command? hj), fun k hkj => ?_⟩
    by_cases hik : i < k
    · simp [hk k hik hkj]
    · simp [hik]

theorem endIfAfter?_eq_none :
    p.endIfAfter? i = none ↔ ∀ k, i < k → p.command? k ≠ some .endIf := by
  rw [endIfAfter?, List.find?_range_eq_none]
  constructor
  · intro h k hik hk
    simpa [hik, hk] using h k (lt_size_of_command? hk)
  · intro h k hk
    by_cases hik : i < k
    · simp [h k hik]
    · simp [hik]

theorem command?_of_mem_labels {token : String} (h : (j, token) ∈ p.labels) :
    p.command? j = some .pos := by
  obtain ⟨k, -, hk⟩ := List.mem_filterMap.1 h
  split at hk
  · next hc =>
    obtain ⟨line, -, hl⟩ := Option.bind_eq_some_iff.1 hk
    obtain ⟨token', -, hl⟩ := Option.map_eq_some_iff.1 hl
    cases hl
    exact hc
  · cases hk

variable (p m) in
/-- The line at `i` is a jump, and the label that it finds is the one at `j`. -/
structure JumpsTo (i j : Nat) : Prop where
  command : p.command? i = some .goto
  label : ∃ line target, p.line? i = some line ∧ m.operand .composite line.args = .ok target ∧
    m.findLabel target.render p.labels = .ok (some j)

theorem JumpsTo.pos (h : p.JumpsTo m i j) : p.command? j = some .pos := by
  obtain ⟨line, target, -, -, hl⟩ := h.label
  obtain ⟨token, ht⟩ := Memory.mem_of_findLabel hl
  exact command?_of_mem_labels ht

/-! ## The rules -/

variable (p m i) in
/-- The line at `i` leads to the line at another index, or, if the run halts,
    nowhere. -/
inductive Leads : Option Nat → Prop
  /-- A line that is no command. -/
  | blank : p.line? i = none → Leads (some (i + 1))
  /-- A keyword that belongs to no command. -/
  | unknown {line : Line} : p.line? i = some line → p.command? i = none → Leads (some (i + 1))
  /-- A command that has no part in the flow of control. -/
  | plain {line : Line} {c : Command} : p.line? i = some line → p.command? i = some c →
    c ≠ .ifTrue → c ≠ .goto → c ≠ .quit → Leads (some (i + 1))
  /-- A condition that is true. -/
  | holds {line : Line} {value : Value} : p.line? i = some line → p.command? i = some .ifTrue →
    m.operand .native line.args = .ok value → value.isTrue = true → Leads (some (i + 1))
  /-- A condition that is false. -/
  | skips {line : Line} {value : Value} {j : Nat} : p.line? i = some line →
    p.command? i = some .ifTrue → m.operand .native line.args = .ok value →
    value.isTrue = false → p.EndsAt i j → Leads (some (j + 1))
  /-- A condition that is false and has no end. -/
  | endless {line : Line} {value : Value} : p.line? i = some line →
    p.command? i = some .ifTrue → m.operand .native line.args = .ok value →
    value.isTrue = false → (∀ k, i < k → p.command? k ≠ some .endIf) → Leads (some (i + 1))
  /-- A jump that finds a label. -/
  | jumps {j : Nat} : p.JumpsTo m i j → Leads (some (j + 1))
  /-- A jump that finds no label. -/
  | misses {line : Line} {target : Value} : p.line? i = some line → p.command? i = some .goto →
    m.operand .composite line.args = .ok target →
    m.findLabel target.render p.labels = .ok none → Leads (some (i + 1))
  /-- A command to quit. -/
  | quits {line : Line} : p.line? i = some line → p.command? i = some .quit → Leads none

/-- A line leads to one place only. -/
theorem Leads.unique {a b : Option Nat} (ha : p.Leads m i a) (hb : p.Leads m i b) : a = b := by
  -- The premises of two rules exclude each other; those of one rule leave open
  -- at most where a condition ends, which is one place.
  cases ha <;> cases hb <;> grind [EndsAt, EndsAt.unique, JumpsTo]

/-- A line of a program leads to another one, or to the end. -/
theorem Leads.le_size (h : p.Leads m i (some j)) (hi : i < p.size) : j ≤ p.size := by
  cases h with
  | skips _ _ _ _ he => exact lt_size_of_command? he.command
  | jumps hj => exact lt_size_of_command? hj.pos
  | _ => exact hi

end Program

/-! ## Commands -/

/-- The actions of control flow belong to one command each. -/
theorem Command.eq_of_action (c : Command) :
    match c.action with
    | .condition => c = .ifTrue
    | .jump => c = .goto
    | .halt => c = .quit
    | _ => c ≠ .ifTrue ∧ c ≠ .goto ∧ c ≠ .quit := by
  cases c with
  | ifTrue | goto | quit => rfl
  | _ => exact ⟨nofun, nofun, nofun⟩

/-- The index that a flow leads to from the line at `i`. -/
def Flow.next? (i : Nat) : Flow → Option Nat
  | .next => some (i + 1)
  | .after j => some (j + 1)
  | .halt => none

theorem Run.next?_follow (r : Run σ) (flow : Flow) :
    (r.follow flow).next? = flow.next? r.index := by
  cases flow <;> rfl

namespace Program

variable {host : Host σ} {p : Program}

/-- A command follows the rules. -/
theorem leads_of_effect {m : Memory} {g : Generator} {i : Nat} {line : Line} {c : Command}
    {e : Effect} {flow : Flow} (hl : p.line? i = some line) (hc : p.command? i = some c)
    (he : c.action.effect p i line.args m g = .ok (e, flow)) : p.Leads m i (flow.next? i) := by
  have ha := c.eq_of_action
  have hy := Action.yields_of_effect he
  generalize c.action = a at ha hy
  cases hy with
  | holds hv ht =>
    rw [ha] at hc
    exact .holds hl hc hv ht
  | skips hv ht =>
    rw [ha] at hc
    cases hj : p.endIfAfter? i with
    | none => exact .endless hl hc hv ht (endIfAfter?_eq_none.1 hj)
    | some j => exact .skips hl hc hv ht (endIfAfter?_eq_some.1 hj)
  | @jump target label ht hj =>
    rw [ha] at hc
    cases label with
    | none => exact .misses hl hc ht hj
    | some j => exact .jumps ⟨hc, line, target, hl, ht, hj⟩
  | halt =>
    rw [ha] at hc
    exact .quits hl hc
  | _ => exact .plain hl hc ha.1 ha.2.1 ha.2.2

/-- A visit that does not fail follows the rules. -/
theorem Visit.leads {r : Run σ} {entry : Entry} {x : Progress σ} (hv : p.Visit host r entry x)
    (he : p.entries[r.index]? = some entry) (hx : x.error? = none) :
    p.Leads r.machine.memory r.index x.next? := by
  cases hv with
  | blank hl => exact .blank ((line?_of_some he).trans hl)
  | unknown hl hc => exact .unknown ((line?_of_some he).trans hl) ((command?_of_some he).trans hc)
  | command hl hc hf =>
    rw [Run.next?_follow]
    exact leads_of_effect ((line?_of_some he).trans hl) ((command?_of_some he).trans hc) hf
  | fault => cases hx

/-- A run that ends in a visit stays where it is. -/
theorem Visit.index_of_ended {r : Run σ} {entry : Entry} {x : Progress σ}
    (hv : p.Visit host r entry x) (hx : x.Ended) : x.run.index = r.index := by
  cases hv with
  | blank | unknown => exact absurd rfl (hx _)
  | @command _ _ _ flow =>
    cases flow with
    | next | after => exact absurd rfl (hx _)
    | halt => rfl
  | fault => rfl

variable (host) in
/-- A run stays within the program. -/
theorem index_resume_le (fuel : Nat) {r : Run σ} (hr : r.index ≤ p.size) :
    (p.resume host fuel r).run.index ≤ p.size := by
  refine resume_invariant (P := fun r => r.index ≤ p.size) (fun {r entry x} he hv _ => ?_) fuel hr
  have hi : r.index < p.size := lt_size_of_some he
  cases x with
  | running r' => exact (hv.leads he rfl).le_size hi
  | finished r' | failed e r' =>
    rw [hv.index_of_ended nofun]
    exact Nat.le_of_lt hi

theorem advance_of_effect {r : Run σ} {line : Line} {c : Command} {e : Effect} {flow : Flow}
    (hl : p.line? r.index = some line) (hc : p.command? r.index = some c)
    (he : c.action.effect p r.index line.args r.machine.memory r.machine.generator =
      .ok (e, flow)) :
    p.advance host r = Run.follow
      { r with machine := (e.apply host r.machine).echoed host line, visited := r.visited + 1 }
      flow := by
  obtain ⟨entry, hp, hl'⟩ := Option.bind_eq_some_iff.1 hl
  exact (advance_iff hp).2 (.command hl' ((command?_of_some hp).symm.trans hc) he)

theorem error?_advance_of_effect {r : Run σ} {line : Line} {c : Command} {fault : Fault}
    (hl : p.line? r.index = some line) (hc : p.command? r.index = some c)
    (he : c.action.effect p r.index line.args r.machine.memory r.machine.generator =
      .error fault) :
    (p.advance host r).error? = some ⟨r.index + 1, line.keyword.map Char.toUpper, fault⟩ := by
  obtain ⟨entry, hp, hl'⟩ := Option.bind_eq_some_iff.1 hl
  rw [(advance_iff hp).2 (.fault hl' ((command?_of_some hp).symm.trans hc) he)]
  rfl

/-- A condition that is false does nothing but lead past its end. -/
theorem advance_of_false {r : Run σ} {line : Line} {value : Value} {j : Nat}
    (hl : p.line? r.index = some line) (hc : p.command? r.index = some .ifTrue)
    (hv : r.machine.memory.operand .native line.args = .ok value) (ht : value.isTrue = false)
    (hj : p.EndsAt r.index j) :
    p.advance host r = .running
      { machine := r.machine.echoed host line, index := j + 1, visited := r.visited + 1 } := by
  have he : Command.ifTrue.action.effect p r.index line.args r.machine.memory
      r.machine.generator = .ok (.none, .after j) := by
    simp [Command.action, Action.effect, hv, ht, endIfAfter?_eq_some.2 hj]
  exact advance_of_effect hl hc he

/-- A run ends without a fault at the end of the program, or where it quits. -/
theorem advance_eq_finished {r r' : Run σ} (hr : r.index ≤ p.size) :
    p.advance host r = .finished r' ↔
      r.index = p.size ∧ r' = r ∨
        ∃ line, p.line? r.index = some line ∧ p.command? r.index = some .quit ∧
          r' = { r with machine := r.machine.echoed host line, visited := r.visited + 1 } := by
  constructor
  · intro ha
    cases he : p.entries[r.index]? with
    | none =>
      have hi : p.size ≤ r.index := Array.getElem?_eq_none_iff.1 he
      rw [advance_of_none he] at ha
      cases ha
      exact .inl ⟨Nat.le_antisymm hr hi, rfl⟩
    | some entry =>
      have hv : p.Visit host r entry (.finished r') := (advance_iff he).1 ha
      cases hv.leads he rfl with
      | quits hl hc =>
        rw [advance_of_effect hl hc rfl] at ha
        cases ha
        exact .inr ⟨_, hl, hc, rfl⟩
  · rintro (⟨hi, rfl⟩ | ⟨line, hl, hc, rfl⟩)
    · exact advance_of_none (Array.getElem?_eq_none_iff.2 (Nat.le_of_eq hi.symm))
    · exact advance_of_effect hl hc rfl

/-- The flow of control in a run, wherever it has come to.

    If the visit of a line does not fail, the run goes on where the line leads,
    and ends where it leads nowhere. So a run never leaves the program. From a
    condition that is false it comes at once to the line after the end of the
    condition; nothing has happened by then but the echo of the condition, and
    no line in between is visited.

    A run ends without a fault if, and only if, it comes to the end of the
    program or quits. And it counts the lines that it visits. -/
theorem control_flow (host : Host σ) (p : Program) (setup : Setup) (invocation : Invocation)
    (s : σ) :
    let start := Run.start setup invocation s
    (∀ n r x, p.resume host n start = .running r → r.index < p.size → p.advance host r = x →
      x.error? = none → ∀ next, p.Leads r.machine.memory r.index next ↔ next = x.next?) ∧
    (∀ fuel, (p.resume host fuel start).run.index ≤ p.size) ∧
    (∀ n r line value j, p.resume host n start = .running r → p.line? r.index = some line →
      p.command? r.index = some .ifTrue →
      r.machine.memory.operand .native line.args = .ok value → value.isTrue = false →
      p.EndsAt r.index j →
      let r' : Run σ :=
        { machine := r.machine.echoed host line, index := j + 1, visited := r.visited + 1 }
      p.resume host (n + 1) start = .running r' ∧
        ∀ more, p.path host (n + 1 + more) start =
          p.path host n start ++ r.index :: p.path host more r') ∧
    (∀ fuel r', p.resume host fuel start = .finished r' ↔
      ∃ n r, n < fuel ∧ p.resume host n start = .running r ∧
        (r.index = p.size ∧ r' = r ∨
          ∃ line, p.line? r.index = some line ∧ p.command? r.index = some .quit ∧
            r' = { r with machine := r.machine.echoed host line, visited := r.visited + 1 })) ∧
    ∀ fuel, (p.resume host fuel start).run.visited = (p.path host fuel start).length := by
  intro start
  have hle : ∀ fuel, (p.resume host fuel start).run.index ≤ p.size := fun fuel =>
    index_resume_le host fuel (Nat.zero_le _)
  have hindex : ∀ {n r}, p.resume host n start = .running r → r.index ≤ p.size := by
    intro n r hr
    have h := hle n
    rw [hr] at h
    exact h
  refine ⟨?_, hle, ?_, ?_, fun fuel => (visited_resume fuel start).trans (Nat.zero_add _)⟩
  · intro n r x hr hi ha hx next
    have he : p.entries[r.index]? = some p.entries[r.index] := Array.getElem?_eq_getElem hi
    have hL : p.Leads r.machine.memory r.index x.next? := ((advance_iff he).1 ha).leads he hx
    exact ⟨fun hn => hn.unique hL, fun hn => hn ▸ hL⟩
  · intro n r line value j hr hl hc hv ht hj r'
    have ha : p.advance host r = .running r' := advance_of_false hl hc hv ht hj
    exact ⟨resume_succ_of_advance hr ha,
      fun more => path_of_advance more hr (lt_size_of_command? hc) ha⟩
  · intro fuel r'
    constructor
    · intro h
      obtain ⟨n, r, hn, hr, ha⟩ := exists_of_resume_ended h nofun
      exact ⟨n, r, hn, hr, (advance_eq_finished (hindex hr)).1 ha⟩
    · rintro ⟨n, r, hn, hr, h⟩
      exact resume_of_advance hn hr ((advance_eq_finished (hindex hr)).2 h) nofun

/-- A condition within a condition: the outer one ends where the inner one
    does. -/
theorem control_flow_nested :
    let p := ofLines ["IF 0", "IF 1", "ENDIF", "LOG a", "ENDIF"]
    let start := Run.start {} ⟨"T", []⟩ (#[] : Array Call)
    p.EndsAt 0 2 ∧ p.Leads start.machine.memory 0 (some 3) ∧
      ∃ r, p.resume Host.trace 1 start = .running r ∧ r.index = 3 ∧ r.visited = 1 := by
  intro p start
  have hl : p.line? 0 = some ⟨"IF", ["0"]⟩ := by decide +kernel
  have hc : p.command? 0 = some .ifTrue := by decide +kernel
  have hj : p.EndsAt 0 2 := endIfAfter?_eq_some.1 (by decide +kernel)
  have hv : start.machine.memory.operand .native [Value.ofToken "0"] = .ok (.integer 0) :=
    Fault.eq_ok_of_toOption (by decide +kernel)
  obtain ⟨hnext, -, hskip, -⟩ := control_flow Host.trace p {} ⟨"T", []⟩ #[]
  obtain ⟨hr, -⟩ := hskip 0 start _ _ 2 rfl hl hc hv rfl hj
  have ha : p.advance Host.trace start = .running _ := advance_of_false hl hc hv rfl hj
  have hn : p.Leads start.machine.memory 0 (some 3) :=
    (hnext 0 start _ rfl (by decide +kernel) ha rfl _).2 rfl
  exact ⟨hj, hn, _, hr, rfl, rfl⟩

end Program

end SimpleBatch
