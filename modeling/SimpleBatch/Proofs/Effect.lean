import SimpleBatch.Proofs.Computation

/-!
# Effects

What an action does can be said without a machine. From the arguments, the
memory and the generator alone it comes to a fault, or to an *effect* and a
flow (`Action.effect`): neither the switch for echoing nor the host has a part
in it. An action has one effect at most, and has it last:

* it writes to memory, with or without a draw from the generator;
* it switches echoing;
* or it makes one call to the host.

So a fault finds the machine as it was, but for the generator: a number that
was drawn and could not be written stays drawn (`Action.spent`).

* `Action.yields_of_effect`: what the effect and the flow of an action can be;
* `Machine.act_eq`: an action carried out on a machine is its effect applied to
  the machine;
* `Machine.execute_some`: so is the command of a line, which is echoed after
  the effect.
-/

namespace SimpleBatch

variable {σ : Type}

/-! ## Effects of actions -/

/-- A change that an action makes. -/
inductive Effect where
  /-- No change. -/
  | none
  /-- The memory becomes another. -/
  | write (memory : Memory)
  /-- The memory becomes another, after a draw from the generator. -/
  | draw (memory : Memory) (generator : Generator)
  /-- Echoing is switched on or off. -/
  | setEcho (on : Bool)
  /-- The host receives a call. -/
  | call (c : Call)

/-- A machine after an effect. -/
def Effect.apply (host : Host σ) (m : Machine σ) : Effect → Machine σ
  | none => m
  | write memory => { m with memory }
  | draw memory generator => { m with memory, generator }
  | setEcho on => { m with echo := on }
  | call c => { m with host := host.perform c m.host }

namespace Memory

variable (m : Memory)

/-- The operand of a command that needs none: its first argument, or the
    register. -/
def operand (mode : Substitution) : List Value → Except Fault Value
  | [] => .ok m.register
  | a :: _ => m.resolve mode a

/-- The operand of a command that needs one: its first argument. -/
def required (mode : Substitution) : List Value → Except Fault Value
  | [] => .error (.argumentCount 0)
  | a :: _ => m.resolve mode a

/-- The memory after a declaration with arguments: a name, or a value and a
    name. -/
def declareArgs : List Value → Except Fault Memory
  | [] => .error (.argumentCount 0)
  | [name] => (m.declare name.render (.integer 0)).map (·.2)
  | value :: name :: _ => do
    let value ← m.resolve .native value
    (m.declare name.render value).map (·.2)

/-- A random number between the bounds that arguments give, or in `[0, 1)`, and
    the generator after the draw. -/
def drawn (g : Generator) : List Value → Except Fault (Value × Generator)
  | a :: b :: _ => do
    let lo ← m.resolve .native a
    let hi ← m.resolve .native b
    Value.random lo hi g
  | _ => .ok (.float g.unit.1, g.unit.2)

/-- The argument that says where a random number is to be written. -/
def drawDestination : List Value → Option Value
  | _ :: _ :: rest => rest.head?
  | args => args.head?

end Memory

namespace Action

/-- The effect of an action on arguments, for the line of a program at an
    index, and where the run goes on. -/
def effect (p : Program) (i : Nat) (args : List Value) (m : Memory) (g : Generator) :
    Action → Except Fault (Effect × Flow)
  | .operate op => (op.run m args).map fun memory => (.write memory, .next)
  | .declare => (m.declareArgs args).map fun memory => (.write memory, .next)
  | .draw => do
    let (value, generator) ← m.drawn g args
    let memory ← m.assign value (Memory.drawDestination args)
    return (.draw memory generator, .next)
  | .condition => (m.operand .native args).map fun value =>
      (.none, if value.isTrue then .next else (p.endIfAfter? i).elim .next .after)
  | .jump => do
    let target ← m.operand .composite args
    let label ← m.findLabel target.render p.labels
    return (.none, label.elim .next .after)
  | .pass => .ok (.none, .next)
  | .halt => .ok (.none, .halt)
  | .execute => (m.required .composite args).map fun text => (.call (.execute text.render), .next)
  | .log level => (m.required .composite args).map fun text =>
      (.call (.log level text.render), .next)
  | .setEcho => (m.required .native args).map fun value => (.setEcho value.isTrue, .next)
  | .clear => .ok (.call .clear, .next)

/-- The effect and the flow that an action comes to, if it does not fail. -/
inductive Yields (p : Program) (i : Nat) (args : List Value) (m : Memory) (g : Generator) :
    Action → Effect → Flow → Prop
  | operate {op : Operator} {memory : Memory} : op.run m args = .ok memory →
    Yields p i args m g (.operate op) (.write memory) .next
  | declare {memory : Memory} : m.declareArgs args = .ok memory →
    Yields p i args m g .declare (.write memory) .next
  | draw {value : Value} {generator : Generator} {memory : Memory} :
    m.drawn g args = .ok (value, generator) →
    m.assign value (Memory.drawDestination args) = .ok memory →
    Yields p i args m g .draw (.draw memory generator) .next
  | holds {value : Value} : m.operand .native args = .ok value → value.isTrue = true →
    Yields p i args m g .condition .none .next
  | skips {value : Value} : m.operand .native args = .ok value → value.isTrue = false →
    Yields p i args m g .condition .none ((p.endIfAfter? i).elim .next .after)
  | jump {target : Value} {label : Option Nat} : m.operand .composite args = .ok target →
    m.findLabel target.render p.labels = .ok label →
    Yields p i args m g .jump .none (label.elim .next .after)
  | pass : Yields p i args m g .pass .none .next
  | halt : Yields p i args m g .halt .none .halt
  | execute {text : Value} : m.required .composite args = .ok text →
    Yields p i args m g .execute (.call (.execute text.render)) .next
  | log {level : Level} {text : Value} : m.required .composite args = .ok text →
    Yields p i args m g (.log level) (.call (.log level text.render)) .next
  | setEcho {value : Value} : m.required .native args = .ok value →
    Yields p i args m g .setEcho (.setEcho value.isTrue) .next
  | clear : Yields p i args m g .clear (.call .clear) .next

/-- An action that does not fail comes to one of these. -/
theorem yields_of_effect {p : Program} {i : Nat} {args : List Value} {m : Memory} {g : Generator}
    {a : Action} {e : Effect} {flow : Flow} (h : a.effect p i args m g = .ok (e, flow)) :
    Yields p i args m g a e flow := by
  cases a with
  | operate op =>
    obtain ⟨memory, hm, h⟩ := Fault.map_eq_ok.1 h
    cases h
    exact .operate hm
  | declare =>
    obtain ⟨memory, hm, h⟩ := Fault.map_eq_ok.1 h
    cases h
    exact .declare hm
  | draw =>
    obtain ⟨drawn, hd, h⟩ := Fault.bind_eq_ok.1 h
    obtain ⟨memory, hm, h⟩ := Fault.bind_eq_ok.1 h
    cases h
    exact .draw hd hm
  | condition =>
    obtain ⟨value, hv, h⟩ := Fault.map_eq_ok.1 h
    cases h
    cases ht : value.isTrue with
    | true => exact .holds hv ht
    | false => exact .skips hv ht
  | jump =>
    obtain ⟨target, ht, h⟩ := Fault.bind_eq_ok.1 h
    obtain ⟨label, hl, h⟩ := Fault.bind_eq_ok.1 h
    cases h
    exact .jump ht hl
  | pass =>
    cases h
    exact .pass
  | halt =>
    cases h
    exact .halt
  | execute =>
    obtain ⟨text, ht, h⟩ := Fault.map_eq_ok.1 h
    cases h
    exact .execute ht
  | log level =>
    obtain ⟨text, ht, h⟩ := Fault.map_eq_ok.1 h
    cases h
    exact .log ht
  | setEcho =>
    obtain ⟨value, hv, h⟩ := Fault.map_eq_ok.1 h
    cases h
    exact .setEcho hv
  | clear =>
    cases h
    exact .clear

/-- The generator that an action leaves behind in a fault. -/
def spent (args : List Value) (m : Memory) (g : Generator) : Action → Generator
  | .draw =>
    match m.drawn g args with
    | .ok (_, generator) => generator
    | .error _ => g
  | _ => g

end Action

/-- The arguments of a line: the values of its tokens. -/
def Line.args (line : Line) : List Value :=
  line.tokens.map Value.ofToken

namespace Machine

variable (host : Host σ) (m : Machine σ)

@[simp]
theorem resolve_apply (mode : Substitution) (value : Value) :
    resolve mode value m = (m.memory.resolve mode value, m) := by
  simp [resolve, Exec.bind_apply]

@[simp]
theorem operand_apply (mode : Substitution) (args : List Value) :
    operand mode args m = (m.memory.operand mode args, m) := by
  cases args <;> simp [operand, Memory.operand, Exec.bind_apply]

@[simp]
theorem required_apply (mode : Substitution) (args : List Value) :
    required mode args m = (m.memory.required mode args, m) := by
  cases args <;> simp [required, Memory.required]

@[simp]
theorem call_apply (c : Call) : call host c m = (.ok (), Effect.apply host m (.call c)) := rfl

/-- A value that cannot be written leaves the machine as it was. -/
theorem assign_apply (value : Value) (destination : Option Value) :
    assign value destination m = match m.memory.assign value destination with
      | .ok memory => (.ok (), { m with memory })
      | .error fault => (.error fault, m) := by
  cases h : m.memory.assign value destination <;> simp [assign, Exec.bind_apply, h]

/-- A declaration that fails leaves the machine as it was. -/
theorem declare_apply (args : List Value) :
    declare args m = match m.memory.declareArgs args with
      | .ok memory => (.ok (), { m with memory })
      | .error fault => (.error fault, m) := by
  match args with
  | [] => simp [declare, Memory.declareArgs]
  | [name] =>
    cases h : m.memory.declare name.render (.integer 0) <;>
      simp [declare, Memory.declareArgs, Exec.bind_apply, h]
  | value :: name :: _ =>
    cases hv : m.memory.resolve .native value with
    | error fault => simp [declare, Memory.declareArgs, Exec.bind_apply, hv]
    | ok v =>
      cases h : m.memory.declare name.render v <;>
        simp [declare, Memory.declareArgs, Exec.bind_apply, hv, h]

/-- A draw: the number is drawn first, and then written. -/
theorem draw_apply (args : List Value) :
    draw args m = match m.memory.drawn m.generator args with
      | .error fault => (.error fault, m)
      | .ok (value, generator) =>
        assign value (Memory.drawDestination args) { m with generator } := by
  match args with
  | [] => simp [draw, Memory.drawn, Memory.drawDestination, Exec.bind_apply]
  | [a] => simp [draw, Memory.drawn, Memory.drawDestination, Exec.bind_apply]
  | a :: b :: rest =>
    simp only [draw, Memory.drawn, Memory.drawDestination, Exec.bind_apply, resolve_apply]
    cases m.memory.resolve .native a with
    | error fault => simp
    | ok lo =>
      cases hb : m.memory.resolve .native b with
      | error fault => simp [hb]
      | ok hi => cases h : Value.random lo hi m.generator <;> simp [hb, h]

/-- An action carried out on a machine is its effect applied to the machine. -/
theorem act_eq (p : Program) (i : Nat) (args : List Value) (a : Action) :
    act host p i args a m = match a.effect p i args m.memory m.generator with
      | .ok (e, flow) => (.ok flow, e.apply host m)
      | .error fault =>
        (.error fault, { m with generator := a.spent args m.memory m.generator }) := by
  cases a with
  | operate op =>
    cases h : op.run m.memory args <;>
      simp [act, Action.effect, Action.spent, Effect.apply, Exec.bind_apply, Exec.map_apply, h]
  | declare =>
    cases h : m.memory.declareArgs args <;>
      simp [act, Action.effect, Action.spent, Effect.apply, Exec.bind_apply, declare_apply, h]
  | draw =>
    simp only [act, Action.effect, Action.spent, Exec.bind_apply, draw_apply]
    cases m.memory.drawn m.generator args with
    | error fault => simp
    | ok drawn =>
      cases h : m.memory.assign drawn.1 (Memory.drawDestination args) <;>
        simp [assign_apply, h, Effect.apply]
  | condition =>
    simp only [act, Action.effect, Action.spent, Exec.bind_apply, operand_apply]
    cases m.memory.operand .native args with
    | error fault => simp
    | ok value => cases h : value.isTrue <;> simp [h, Effect.apply]
  | jump =>
    simp only [act, Action.effect, Action.spent, Exec.bind_apply, operand_apply]
    cases m.memory.operand .composite args with
    | error fault => simp
    | ok target =>
      cases h : m.memory.findLabel target.render p.labels <;> simp [h, Effect.apply]
  | pass => rfl
  | halt => rfl
  | execute =>
    cases h : m.memory.required .composite args <;>
      simp [act, Action.effect, Action.spent, Exec.bind_apply, Exec.map_apply, h]
  | log level =>
    cases h : m.memory.required .composite args <;>
      simp [act, Action.effect, Action.spent, Exec.bind_apply, Exec.map_apply, h]
  | setEcho =>
    cases h : m.memory.required .native args <;>
      simp [act, Action.effect, Action.spent, Effect.apply, Exec.bind_apply, Exec.map_apply, h]
  | clear => rfl

/-! ## Lines -/

/-- The machine after a line was echoed, if echoing is on. -/
def echoed (line : Line) : Machine σ :=
  if m.echo then Effect.apply host m (.call (.echo (echoLine line.keyword line.args))) else m

/-- A keyword that belongs to no command is reported to the host. -/
theorem execute_none (p : Program) (i : Nat) (line : Line) :
    execute host p i line none m =
      (.ok .next, Effect.apply host m
        (.call (.log .error (Command.unknownMessage line.keyword ++ ".")))) := rfl

/-- A command is echoed after its effect, and not at all in a fault. -/
theorem execute_some (p : Program) (i : Nat) (line : Line) (command : Command) :
    execute host p i line (some command) m =
      match command.action.effect p i line.args m.memory m.generator with
      | .ok (e, flow) => (.ok flow, (e.apply host m).echoed host line)
      | .error fault =>
        (.error fault,
          { m with generator := command.action.spent line.args m.memory m.generator }) := by
  simp only [execute, Exec.bind_apply, act_eq, Line.args]
  cases command.action.effect p i (line.tokens.map Value.ofToken) m.memory m.generator with
  | error fault => rfl
  | ok result =>
    cases h : (result.1.apply host m).echo <;>
      simp [echoed, h, Exec.bind_apply, Line.args]

end Machine

end SimpleBatch
