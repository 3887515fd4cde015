import SimpleBatch.Proofs.Checked.Operator
import SimpleBatch.Proofs.Repetition

/-!
# Runs with checks

A run from the very beginning, with a check at every access and at every cast: the source
text and the console line are read by positions, the memory is set up slot by slot, and
every line that is visited computes with checks (`Checked.run`).

`Checked.fails_at_misfits`: for any source text, console line, environment, seed and number
of visits, and on any host, the run with checks is the run of the program, unless it comes
to a line that gives one of the casts in `strict` a number that it does not keep. There,
and nowhere else, a check fails. So nothing but such a number is ever outside its bounds,
no look-up needs a value to fall back to, and with none of these casts in `strict` no check
fails at all, also after a number was not kept.

One visit fails no other check if there are no more names than slots for them
(`Checked.failsIff_advance`). That is so at the start, and every visit keeps it, as one
that declares a name finds a slot for it (`Memory.Zoned`).

All three casts do fail (`Checked.strict_fails`). A text of `2 ^ 31` characters is beyond
what a repetition makes, but adding a text to itself is not limited: a run that goes on
doubling its register gets there (`Checked.exists_doubled`).
-/

namespace SimpleBatch

variable {σ α β : Type}

/-! ## Machines -/

/-- A computation with checks that changes a machine. -/
abbrev CheckedExec (σ : Type) := ExceptT Fault (StateT (Machine σ) Option)

namespace CheckedExec

/-- A computation with checks that leaves the machine as it is. -/
def ofChecked (x : Checked α) : CheckedExec σ α :=
  fun m => x.run.map fun y => (y, m)

variable (m : Machine σ)

theorem bind_apply (x : CheckedExec σ α) (f : α → CheckedExec σ β) :
    (x >>= f) m = (x m).bind fun
      | (.ok a, m') => f a m'
      | (.error fault, m') => some (.error fault, m') := by
  change ExceptT.bind x f m = _
  simp only [ExceptT.bind, ExceptT.mk, bind, StateT.bind]
  congr 1
  funext ⟨y, m'⟩
  cases y <;> rfl

@[simp]
theorem pure_apply (a : α) : (pure a : CheckedExec σ α) m = some (.ok a, m) := rfl

@[simp]
theorem get_apply : (get : CheckedExec σ (Machine σ)) m = some (.ok m, m) := rfl

@[simp]
theorem set_apply (m' : Machine σ) : (set m' : CheckedExec σ PUnit) m = some (.ok ⟨⟩, m') := rfl

@[simp]
theorem modify_apply (f : Machine σ → Machine σ) :
    (modify f : CheckedExec σ PUnit) m = some (.ok ⟨⟩, f m) := rfl

theorem ofChecked_apply {x : Checked α} {y : Except Fault α} (h : x.Passes y) :
    ofChecked x m = some (y, m) := by
  rw [ofChecked, show x.run = some y from h]
  rfl

end CheckedExec

namespace Checked

open CheckedExec

variable (strict : Cast → Bool) (host : Host σ) (p : Program)

/-- The host receives a call. -/
def call (c : Call) : CheckedExec σ Unit :=
  modify fun m => { m with host := host.perform c m.host }

/-- A command is carried out on arguments, for the line of a program at an
    index. -/
def act (i : Nat) (args : List Value) (c : Command) : CheckedExec σ Flow := do
  let m ← get
  match c.action with
  | .operate op =>
    let memory ← ofChecked (operate strict m.memory c op args)
    set { m with memory }
    return .next
  | .declare =>
    let memory ← ofChecked (declareArgs m.memory args)
    set { m with memory }
    return .next
  | .draw =>
    let (value, generator) ← ofChecked (drawn m.memory m.generator args)
    set { m with generator }
    let memory ← ofChecked (assign m.memory value (Memory.drawDestination args))
    set { m with generator, memory }
    return .next
  | .condition =>
    let value ← ofChecked (operand m.memory .native args)
    if value.isTrue then return .next else return (p.endIfAfter? i).elim .next .after
  | .jump =>
    let target ← ofChecked (operand m.memory .composite args)
    let label ← ofChecked (findLabel m.memory target.render p.labels)
    return label.elim .next .after
  | .pass => return .next
  | .halt => return .halt
  | .execute =>
    let text ← ofChecked (required m.memory .composite args)
    call host (.execute text.render)
    return .next
  | .log level =>
    let text ← ofChecked (required m.memory .composite args)
    call host (.log level text.render)
    return .next
  | .setEcho =>
    let value ← ofChecked (required m.memory .native args)
    set { m with echo := value.isTrue }
    return .next
  | .clear =>
    call host .clear
    return .next

/-- The line of a program at an index is run. -/
def execute (i : Nat) (line : Line) (command? : Option Command) : CheckedExec σ Flow := do
  match command? with
  | none =>
    call host (.log .error (Command.unknownMessage line.keyword ++ "."))
    return .next
  | some command =>
    let args ← ofChecked (check (line.tokens.mapM ofToken))
    let flow ← act strict host p i args command
    if (← get).echo then call host (.echo (Machine.echoLine line.keyword args))
    return flow

variable {strict host p} {m : Machine σ}

/-- A command that applies no operator passes all checks. -/
theorem act_eq (hm : m.memory.names.length ≤ 90) (i : Nat) (args : List Value) {c : Command}
    (hc : ∀ op, c.action ≠ .operate op) :
    act strict host p i args c m = some (Machine.act host p i args c.action m) := by
  rw [Machine.act_eq, act, bind_apply, get_apply, Option.bind_some]
  cases hc' : c.action with
  | operate op => exact absurd hc' (hc op)
  | declare =>
    simp only [bind_apply, ofChecked_apply m (passes_declareArgs hm args), Option.bind_some]
    cases hr : m.memory.declareArgs args <;> simp [Action.effect, Action.spent, Effect.apply, hr]
  | draw =>
    simp only [bind_apply, ofChecked_apply m (passes_drawn hm _ args), Option.bind_some]
    cases hd : m.memory.drawn m.generator args with
    | error fault => simp [Action.effect, Action.spent, hd]
    | ok drawn =>
      have hassign := passes_assign hm drawn.1 (Memory.drawDestination args)
      simp only [set_apply, Option.bind_some, ofChecked_apply _ hassign]
      cases ha : m.memory.assign drawn.1 (Memory.drawDestination args) <;>
        simp [Action.effect, Action.spent, Effect.apply, hd, ha]
  | condition =>
    simp only [bind_apply, ofChecked_apply m (passes_operand hm .native args), Option.bind_some]
    cases hv : m.memory.operand .native args with
    | error fault => simp [Action.effect, Action.spent, hv]
    | ok value => cases ht : value.isTrue <;> simp [Action.effect, Effect.apply, hv, ht]
  | jump =>
    simp only [bind_apply, ofChecked_apply m (passes_operand hm .composite args),
      Option.bind_some]
    cases ht : m.memory.operand .composite args with
    | error fault => simp [Action.effect, Action.spent, ht]
    | ok target =>
      simp only [ofChecked_apply m (passes_findLabel hm target.render p.labels),
        Option.bind_some]
      cases hl : m.memory.findLabel target.render p.labels <;>
        simp [Action.effect, Action.spent, Effect.apply, ht, hl]
  | pass => rfl
  | halt => rfl
  | execute =>
    simp only [bind_apply, ofChecked_apply m (passes_required hm .composite args),
      Option.bind_some]
    cases hr : m.memory.required .composite args <;>
      simp [Action.effect, Action.spent, Effect.apply, call, hr]
  | log level =>
    simp only [bind_apply, ofChecked_apply m (passes_required hm .composite args),
      Option.bind_some]
    cases hr : m.memory.required .composite args <;>
      simp [Action.effect, Action.spent, Effect.apply, call, hr]
  | setEcho =>
    simp only [bind_apply, ofChecked_apply m (passes_required hm .native args), Option.bind_some]
    cases hr : m.memory.required .native args <;>
      simp [Action.effect, Action.spent, Effect.apply, hr]
  | clear => rfl

/-- A command fails a check just if a strict cast is given a number that it does not
    keep. -/
theorem failsIff_act (hm : m.memory.names.length ≤ 90) (i : Nat) (args : List Value)
    (c : Command) :
    FailsIff (∃ k, strict k = true ∧ Misfits m.memory k c args) (act strict host p i args c m)
      (Machine.act host p i args c.action m) := by
  by_cases hc : ∃ op, c.action = .operate op
  · obtain ⟨op, hc⟩ := hc
    rw [Machine.act_eq, act, bind_apply, get_apply, Option.bind_some]
    simp only [hc, bind_apply, ofChecked, Option.bind_map]
    refine (failsIff_operate hm hc args).bind_some ?_
    cases hr : op.run m.memory args <;> simp [Action.effect, Action.spent, Effect.apply, hr]
  · refine .of_eq_some ?_ (act_eq hm i args fun op h => hc ⟨op, h⟩)
    rintro ⟨k, -, a, out, ha, -⟩
    obtain ⟨op, hop, -⟩ := Addressing.exists_operator ha
    exact hc ⟨op, hop⟩

theorem failsIff_execute (hm : m.memory.names.length ≤ 90) (i : Nat) (line : Line)
    (command? : Option Command) :
    FailsIff (∃ c k, command? = some c ∧ strict k = true ∧
        Misfits m.memory k c line.args)
      (execute strict host p i line command? m) (Machine.execute host p i line command? m) := by
  cases command? with
  | none => exact .of_eq_some (by simp) rfl
  | some command =>
    have hargs := Passes.of_check (mapM_eq_some ofToken_eq line.tokens)
    simp only [execute, Machine.execute, bind_apply, Exec.bind_apply, ofChecked_apply m hargs,
      Option.bind_some]
    refine ((failsIff_act hm i _ command).bind_some ?_).congr (by simp [Line.args])
    rcases Machine.act host p i (line.tokens.map Value.ofToken) command.action m with
      ⟨fault | flow, m'⟩
    · rfl
    · cases he : m'.echo with
      | false => simp [he]
      | true =>
        simp only [get_apply, Exec.get_apply, Option.bind_some, he, if_true]
        rfl

/-! ## Runs -/

variable (strict host p)

/-- A run after a visit of the line at its index. -/
def visit (r : Run σ) (entry : Entry) : Option (Progress σ) := do
  let r := { r with visited := r.visited + 1 }
  match entry.line? with
  | none => return .running { r with index := r.index + 1 }
  | some line =>
    match ← execute strict host p r.index line entry.command? r.machine with
    | (.ok .next, machine) => return .running { r with machine, index := r.index + 1 }
    | (.ok (.after i), machine) => return .running { r with machine, index := i + 1 }
    | (.ok .halt, machine) => return .finished { r with machine }
    | (.error fault, machine) =>
      return .failed
        { line := r.index + 1, command := line.keyword.map Char.toUpper, fault }
        { r with machine }

/-- A run after one more visit, if it is not at its end. -/
def advance (r : Run σ) : Option (Progress σ) :=
  match p.entries[r.index]? with
  | none => return .finished r
  | some entry => visit strict host p r entry

/-- A run after at most `fuel` more visits. -/
def resume : (fuel : Nat) → Run σ → Option (Progress σ)
  | 0, r => return .running r
  | fuel + 1, r => do
    match ← advance strict host p r with
    | .running r => resume fuel r
    | ended => return ended

/-- The run of a source text that a console line starts, after at most `fuel`
    visits. The arguments besides the name are cut out to be reported. -/
def run (setup : Setup) (text console : String) (fuel : Nat) (s : σ) : Option (Progress σ) := do
  let p ← program text
  let i ← invocation console
  let _ ← slice? i.values 1 i.values.length
  let memory ← start i.values setup.environment
  resume strict host p fuel {
    machine := { memory, echo := true, generator := .ofSeed setup.seed, host := s }
    index := 0
    visited := 0 }

/-- The next line of a run gives a cast a number that it does not keep. -/
def MisfitsNext (k : Cast) (r : Run σ) : Prop :=
  ∃ entry line c, p.entries[r.index]? = some entry ∧ entry.line? = some line ∧
    entry.command? = some c ∧ Misfits r.machine.memory k c line.args

/-- Within a number of visits, a run comes to a line that gives a strict cast a number that
    it does not keep. -/
def MisfitsWithin (fuel : Nat) (r : Run σ) : Prop :=
  ∃ n < fuel, ∃ r' k, p.resume host n r = .running r' ∧ strict k = true ∧ MisfitsNext p k r'

variable {strict host p} {r : Run σ}

theorem failsIff_visit (hm : r.machine.memory.names.length ≤ 90) (entry : Entry) :
    FailsIff (∃ line c k, entry.line? = some line ∧ entry.command? = some c ∧ strict k = true ∧
        Misfits r.machine.memory k c line.args)
      (visit strict host p r entry) (p.visit host r entry) := by
  unfold visit Program.visit
  cases entry.line? with
  | none => exact .of_eq_some (by simp) rfl
  | some line =>
    dsimp only
    refine ((failsIff_execute hm r.index line entry.command?).bind_some ?_).congr (by simp)
    rcases Machine.execute host p r.index line entry.command? r.machine with
      ⟨_ | _ | _ | _, machine⟩ <;> rfl

/-- A run fails a check at its next line just if the line gives a strict cast a number
    that it does not keep. -/
theorem failsIff_advance (hm : r.machine.memory.names.length ≤ 90) :
    FailsIff (∃ k, strict k = true ∧ MisfitsNext p k r) (advance strict host p r)
      (p.advance host r) := by
  unfold advance Program.advance
  cases he : p.entries[r.index]? with
  | none => exact .of_eq_some (by simp [MisfitsNext, he]) rfl
  | some entry =>
    refine (failsIff_visit hm entry).congr ⟨?_, ?_⟩
    · rintro ⟨k, hk, entry', line, c, he', hl, hc, hmisfits⟩
      cases he.symm.trans he'
      exact ⟨line, c, k, hl, hc, hk, hmisfits⟩
    · rintro ⟨line, c, k, hl, hc, hk, hmisfits⟩
      exact ⟨k, hk, entry, line, c, he, hl, hc, hmisfits⟩

/-- A run comes to such a line at once or after its next line. -/
theorem misfitsWithin_succ (fuel : Nat) :
    MisfitsWithin strict host p (fuel + 1) r ↔
      (∃ k, strict k = true ∧ MisfitsNext p k r) ∨
        ∃ r₁, p.advance host r = .running r₁ ∧ MisfitsWithin strict host p fuel r₁ := by
  constructor
  · rintro ⟨n, hn, r', k, hr, hk, hmisfits⟩
    cases n with
    | zero =>
      cases hr
      exact .inl ⟨k, hk, hmisfits⟩
    | succ n =>
      rw [Program.resume] at hr
      split at hr
      · next r₁ h => exact .inr ⟨r₁, h, n, by omega, r', k, hr, hk, hmisfits⟩
      · next hended => exact absurd hr (hended r')
  · rintro (⟨k, hk, hmisfits⟩ | ⟨r₁, h, n, hn, r', k, hr, hk, hmisfits⟩)
    · exact ⟨0, by omega, r, k, rfl, hk, hmisfits⟩
    · refine ⟨n + 1, by omega, r', k, ?_, hk, hmisfits⟩
      rw [Program.resume, h]
      exact hr

/-- A visit keeps the zones of the memory. -/
theorem zoned_advance {args : List Value} {env : Environment} {r₁ : Run σ}
    (hz : Memory.Zoned args env r.machine.memory) (h : p.advance host r = .running r₁) :
    Memory.Zoned args env r₁.machine.memory := by
  unfold Program.advance at h
  split at h
  · cases h
  · next entry he =>
    have hvisit := p.visit_spec host r entry
    rw [h] at hvisit
    exact hz.written hvisit.written

/-- A run fails a check just if it comes to a line that gives a strict cast a number that
    it does not keep. A visit keeps what the next one needs for its own checks. -/
theorem failsIff_resume {args : List Value} {env : Environment}
    (hz : Memory.Zoned args env r.machine.memory) (fuel : Nat) :
    FailsIff (MisfitsWithin strict host p fuel r) (resume strict host p fuel r)
      (p.resume host fuel r) := by
  induction fuel generalizing r with
  | zero => exact .of_eq_some (by simp [MisfitsWithin]) rfl
  | succ fuel ih =>
    rw [resume, Program.resume]
    refine FailsIff.congr ((failsIff_advance hz.names_length).bind ?_) (misfitsWithin_succ fuel)
    cases hx : p.advance host r with
    | running r₁ =>
      refine (ih (zoned_advance hz hx)).congr ?_
      simp
    | finished r₁ => exact .of_eq_some (by simp) rfl
    | failed e r₁ => exact .of_eq_some (by simp) rfl

theorem failsIff_run (strict : Cast → Bool) (host : Host σ) (setup : Setup)
    (text console : String) (fuel : Nat) (s : σ) :
    FailsIff (MisfitsWithin strict host (.ofSource text) fuel (.start setup (.parse console) s))
      (run strict host setup text console fuel s)
      ((Program.ofSource text).resume host fuel (.start setup (.parse console) s)) := by
  have hargs : 1 ≤ (Invocation.parse console).values.length := by simp [Invocation.values]
  simp only [run, program_eq, invocation_eq, slice?_length hargs, start_eq, Option.bind_eq_bind,
    Option.bind_some]
  exact failsIff_resume (r := .start setup (.parse console) s) (Memory.zoned_start _ _) fuel

/-! ## A text that is doubled -/

section Doubling

open Text (repeated repeated_add length_repeated)

/-- The lines of a script that makes a text of `2 ^ 24` characters, doubles it seven times
    and counts its characters. -/
def doublings : List String :=
  ["MUL a,16777216"] ++ List.replicate 7 "ADD %REGISTER%" ++ ["STRLEN"]

/-- An operator writes its result to the register if no destination is given. -/
theorem advance_of_eval (host : Host σ) {i : Nat} {source : String} {line : Line} {c : Command}
    {op : Operator} {v : Value} (hi : r.index = i)
    (he : p.entries[i]? = some ⟨source, some line, some c⟩) (hc : c.action = .operate op)
    (hv : op.eval r.machine.memory line.args = .ok v) (hd : line.args[op.arity]? = none) :
    ∃ r', p.advance host r = .running r' ∧ r'.index = i + 1 ∧
      r'.machine.memory.register = v := by
  subst hi
  have heffect : c.action.effect p r.index line.args r.machine.memory r.machine.generator =
      .ok (.write (r.machine.memory.setRegister v), .next) := by
    simp [hc, Action.effect, Operator.run, hv, hd, Memory.assign]
  refine ⟨_, (Program.advance_iff he).2 (.command rfl rfl heffect), rfl, ?_⟩
  simp [Effect.apply, Memory.register, Memory.setRegister]

theorem eval_mul (m : Memory) :
    Operator.eval (.binary .native .native Value.mul) m [.text "a", .integer 16777216] =
      .ok (.text (repeated "a" (2 ^ 24))) := by
  have ha : m.resolve .native (.text "a") = .ok (.text "a") := m.resolve_doubled .native "a"
  have hn : m.resolve .native (.integer 16777216) = .ok (.integer 16777216) := rfl
  have hcount : Value.integer 16777216 = Value.ofNat (2 ^ 24) := by decide +kernel
  have hsize : "a".utf8ByteSize * 2 ^ 24 ≤ Value.maxRepeatedBytes := by decide +kernel
  have hmul := (Value.mul_ofNat_eq_ok (by decide) (by decide)).2 ⟨hsize, rfl⟩
  rw [← hcount] at hmul
  simp only [Operator.eval, ha, hn]
  exact hmul

theorem eval_add {m : Memory} {t : String} (h : m.register = .text t) :
    Operator.eval (.binary .native .native Value.add) m [.text "%REGISTER%"] =
      .ok (.text (t ++ t)) := by
  have hname : (Reference.value "REGISTER").Writable := by
    refine ⟨by decide, by decide, ?_⟩
    rintro _ ⟨⟩
    decide
  have hr : m.resolve .native (.text "%REGISTER%") = .ok m.register := m.resolve_reference hname
  simp only [Operator.eval, hr, h]
  rfl

/-- A run has doubled the text as often as it has visited a line after the first one. -/
theorem exists_doubled (host : Host σ) (setup : Setup) (invocation : Invocation) (s : σ) {k : Nat}
    (hk : k ≤ 7) :
    ∃ r, (Program.ofLines doublings).resume host (k + 1) (.start setup invocation s) =
        .running r ∧
      r.index = k + 1 ∧ r.machine.memory.register = .text (repeated "a" (2 ^ 24 * 2 ^ k)) := by
  induction k with
  | zero =>
    have hentry : Entry.ofSource "MUL a,16777216" =
        ⟨"MUL a,16777216", some ⟨"MUL", ["a", "16777216"]⟩, some .mul⟩ := by decide +kernel
    have hargs : Line.args ⟨"MUL", ["a", "16777216"]⟩ = [.text "a", .integer 16777216] := by
      decide +kernel
    have he := Program.entries_ofLines doublings 0
    obtain ⟨r, hr, hindex, hregister⟩ := advance_of_eval host (r := .start setup invocation s)
      rfl (he.trans (congrArg some hentry)) rfl (hargs ▸ eval_mul _) (hargs ▸ rfl)
    exact ⟨r, Program.resume_succ_of_advance rfl hr, hindex, hregister⟩
  | succ k ih =>
    obtain ⟨r, hr, hindex, hregister⟩ := ih (by omega)
    have hentry : Entry.ofSource "ADD %REGISTER%" =
        ⟨"ADD %REGISTER%", some ⟨"ADD", ["%REGISTER%"]⟩, some .add⟩ := by decide +kernel
    have hargs : Line.args ⟨"ADD", ["%REGISTER%"]⟩ = [.text "%REGISTER%"] := by decide +kernel
    have hline : ∀ k < 7, doublings[k + 1]? = some "ADD %REGISTER%" := by decide
    have he := Program.entries_ofLines doublings (k + 1)
    rw [hline k (by omega), Option.map_some, hentry] at he
    obtain ⟨r', hr', hindex', hregister'⟩ := advance_of_eval host hindex he rfl
      (hargs ▸ eval_add hregister) (hargs ▸ rfl)
    refine ⟨r', Program.resume_succ_of_advance hr hr', hindex', ?_⟩
    rw [hregister', ← repeated_add, ← Nat.mul_two, Nat.mul_assoc, ← Nat.pow_succ]

/-- After seven doublings the number of characters is no integer of 32 bits. -/
theorem misfitsNext_doublings (host : Host σ) (setup : Setup) (invocation : Invocation) (s : σ) :
    ∃ r, (Program.ofLines doublings).resume host 8 (.start setup invocation s) = .running r ∧
      MisfitsNext (.ofLines doublings) .length r := by
  obtain ⟨r, hr, hindex, hregister⟩ := exists_doubled host setup invocation s (Nat.le_refl 7)
  have hentry : Entry.ofSource "STRLEN" = ⟨"STRLEN", some ⟨"STRLEN", []⟩, some .strLen⟩ := by
    decide +kernel
  have he : (Program.ofLines doublings).entries[r.index]? = some (.ofSource "STRLEN") := by
    rw [hindex, Program.entries_ofLines]
    rfl
  rw [hentry] at he
  refine ⟨r, hr, _, _, _, he, rfl, rfl, _, _, rfl, Nat.le.refl, Nat.zero_le _, rfl, .length ?_⟩
  rw [hregister, Value.render, length_repeated]
  decide

end Doubling

/-! ## The checks that fail -/

/-- No check fails but those of three casts, and these just on the numbers that they do
    not keep.

    However a program and a console line are written, in whatever environment, with
    whatever seed, on whatever host and for however many visits, and whichever of the casts
    in `Cast` are checked besides everything else: a check fails if the run comes to a line
    that gives one of these casts a number that it does not keep, and otherwise the run
    with checks is the run of the program. -/
theorem fails_at_misfits (strict : Cast → Bool) (host : Host σ) (setup : Setup)
    (text console : String) (fuel : Nat) (s : σ) :
    let p := Program.ofSource text
    let first := Run.start setup (.parse console) s
    let misfits := ∃ n < fuel, ∃ r k, p.resume host n first = .running r ∧ strict k = true ∧
      MisfitsNext p k r
    (run strict host setup text console fuel s = none ↔ misfits) ∧
      (run strict host setup text console fuel s = some (p.resume host fuel first) ↔
        ¬misfits) := by
  have hfails := failsIff_run strict host setup text console fuel s
  exact ⟨hfails.eq_none_iff, hfails.eq_some_iff⟩

/-- The number of characters of a text that is doubled until it has `2 ^ 31` of them, a number
    beyond the range of integers, and a modulus just below its divisor, which no number of
    32 bits is. -/
theorem strict_fails :
    run (fun _ => true) Host.trace {}
        ("MUL a,16777216\n" ++ Text.repeated "ADD %REGISTER%\n" 7 ++ "STRLEN") "TEST" 9 #[] =
        none ∧
      run (fun _ => true) Host.trace {} "TOINT 3000000000" "TEST" 1 #[] = none ∧
      run (fun _ => true) Host.trace {} "MOD -1e-9,1.0" "TEST" 1 #[] = none := by
  refine ⟨?_, ?_, ?_⟩
  · have hlines : Program.ofSource
        ("MUL a,16777216\n" ++ Text.repeated "ADD %REGISTER%\n" 7 ++ "STRLEN") =
        .ofLines doublings := by decide +kernel
    obtain ⟨r, hr, hmisfits⟩ := misfitsNext_doublings Host.trace {} (.parse "TEST") #[]
    rw [← hlines] at hr hmisfits
    exact (failsIff_run _ _ _ _ _ 9 _).fails ⟨8, by decide, r, .length, hr, rfl, hmisfits⟩
  · exact Option.isNone_iff_eq_none.1 (by decide +kernel)
  · exact Option.isNone_iff_eq_none.1 (by decide +kernel)

end Checked

end SimpleBatch
