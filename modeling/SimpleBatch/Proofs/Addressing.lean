import SimpleBatch.Proofs.Write

/-!
# The rule of addressing

Thirty-five commands apply an operator to operands and write the result. They
find their operands and the destination by one rule, which is stated here once
for any number of operands (`Addressing.run`), beside the table of the commands
that follow it (`Addressing.ofCommand?`):

* too few arguments are refused: at most one operand may be missing, and none
  of a command that asks for its argument;
* the operands are the arguments in order, substituted from left to right. The
  register stands for a missing operand, always the first one, and is taken as
  it is; so an argument has the substitution of its place counted from the end;
* the operator is applied;
* one more argument gives the slot for the result, an integer from 10 to 100.
  Without it, the result goes to the register.

`Machine.act_eq_addressing`: the commands of the table do just this.
-/

namespace SimpleBatch

/-- How a command is applied to arguments. -/
structure Addressing where
  /-- The number of arguments that have to be given. -/
  least : Nat
  /-- The substitution of each operand. -/
  modes : List Substitution
  /-- The operator, on the list of its operands. -/
  apply : List Value → Except Fault Value

/-- The slot that a destination stands for, if it can be written; the register
    without a destination. -/
def Memory.destination (m : Memory) (d : Option Value) : Except Fault Nat :=
  match d with
  | none => .ok 100
  | some d => do
    match ← m.resolve .native d with
    | .integer address =>
      if 10 ≤ address.toInt ∧ address.toInt ≤ 100 then .ok address.toInt.toNat
      else if 0 ≤ address.toInt ∧ address.toInt < 107 then
        .error (.readOnlySlot address.toInt.toNat)
      else .error (.addressOutside address)
    | other => .error (.destinationKind other.kind)

namespace Addressing

/-! ## The rule -/

variable (a : Addressing) (m : Memory) (args : List Value)

/-- The number of operands. -/
def arity : Nat :=
  a.modes.length

/-- The operands: the register, if one of them is missing, and the arguments in
    order, with the substitutions of the last operands. -/
def operands : Except Fault (List Value) := do
  let missing := a.arity - args.length
  let given ← ((args.take a.arity).zip (a.modes.drop missing)).mapM fun (arg, mode) =>
    m.resolve mode arg
  return if args.length < a.arity then m.register :: given else given

/-- Enough arguments are the operands. -/
theorem operands_of_le (h : a.arity ≤ args.length) :
    a.operands m args =
      ((args.take a.arity).zip a.modes).mapM fun (arg, mode) => m.resolve mode arg := by
  rw [operands, Nat.sub_eq_zero_of_le h, List.drop_zero]
  simp only [if_neg (Nat.not_lt.2 h), bind_pure]

/-- The register takes the place of a missing operand. -/
theorem operands_of_lt (h : args.length < a.arity) :
    a.operands m args = do
      let given ← (args.zip (a.modes.drop (a.arity - args.length))).mapM fun (arg, mode) =>
        m.resolve mode arg
      return m.register :: given := by
  rw [operands, List.take_of_length_le (Nat.le_of_lt h)]
  simp only [if_pos h]

/-- The memory after a command was applied to arguments. -/
def run : Except Fault Memory := do
  if args.length + 1 < a.arity ∨ args.length < a.least then
    throw (.argumentCount args.length)
  let value ← a.apply (← a.operands m args)
  let slot ← m.destination args[a.arity]?
  return m.put slot value

/-! ## The table -/

/-- An operator on a list of one operand. -/
def onOne (f : Value → Except Fault Value) : List Value → Except Fault Value
  | [a] => f a
  | operands => .error (.argumentCount operands.length)

/-- An operator on a list of two operands. -/
def onTwo (f : Value → Value → Except Fault Value) : List Value → Except Fault Value
  | [a, b] => f a b
  | operands => .error (.argumentCount operands.length)

/-- An operator on a list of three operands. -/
def onThree (f : Value → Value → Value → Except Fault Value) : List Value → Except Fault Value
  | [a, b, c] => f a b c
  | operands => .error (.argumentCount operands.length)

/-- One native operand. -/
def one (f : Value → Except Fault Value) : Addressing :=
  ⟨0, [.native], onOne f⟩

/-- Two native operands. -/
def two (f : Value → Value → Except Fault Value) : Addressing :=
  ⟨0, [.native, .native], onTwo f⟩

/-- The table: how the commands that follow the rule are applied. -/
def ofCommand? : Command → Option Addressing
  -- one native operand
  | .set => some ⟨1, [.native], onOne .ok⟩
  | .toInt => some (one Value.floor)
  | .rnd => some (one Value.round)
  | .ceil => some (one Value.ceil)
  | .char => some (one Value.character)
  | .str => some (one fun a => .ok a.toText)
  | .hex => some (one Value.hexadecimal)
  | .bin => some (one Value.binary)
  | .iNot => some (one Value.complement)
  | .isTrue => some (one fun a => .ok a.truth)
  | .isFalse => some (one fun a => .ok a.falsity)
  | .typInt => some (one fun a => .ok (a.hasKind .integer))
  | .typFlt => some (one fun a => .ok (a.hasKind .float))
  | .typStr => some (one fun a => .ok (a.hasKind .text))
  -- one composite operand
  | .stc => some ⟨1, [.composite], onOne fun a => .ok a.toText⟩
  | .parse => some ⟨0, [.composite], onOne Value.parseNumber⟩
  | .strLen => some ⟨0, [.composite], onOne fun a => .ok a.length⟩
  -- two native operands
  | .add => some (two Value.add)
  | .sub => some (two Value.sub)
  | .mul => some (two Value.mul)
  | .div => some (two Value.div)
  | .mod => some (two Value.mod)
  | .shl => some (two Value.shiftLeft)
  | .shr => some (two Value.shiftRight)
  | .iAnd => some (two Value.bitAnd)
  | .iOr => some (two Value.bitOr)
  | .iXor => some (two Value.bitXor)
  | .and => some (two fun a b => .ok (a.both b))
  | .or => some (two fun a b => .ok (a.either b))
  | .xor => some (two fun a b => .ok (a.eitherOnly b))
  | .isEq => some (two fun a b => .ok (a.equal b))
  | .isLt => some (two Value.less)
  | .isGt => some (two Value.greater)
  -- operands of both kinds
  | .strGet => some ⟨0, [.composite, .native], onTwo Value.charAt⟩
  | .subStr => some ⟨0, [.composite, .native, .native], onThree Value.substring⟩
  | _ => none

end Addressing

/-! ## Operators -/

/-- A result is written to the slot that its destination stands for. -/
theorem Memory.assign_eq (m : Memory) (value : Value) (d : Option Value) :
    m.assign value d = do return m.put (← m.destination d) value := by
  cases d with
  | none =>
    rw [assign, setRegister_eq]
    rfl
  | some d =>
    simp only [assign, destination]
    cases m.resolve .native d with
    | error fault => rfl
    | ok v =>
      cases v with
      | integer address =>
        simp only [store_eq, Fault.ok_bind]
        split
        · rfl
        · split <;> rfl
      | float x => rfl
      | text s => rfl

namespace Operator

/-- The rule that an operator follows. -/
def addressing : Operator → Addressing
  | unary mode f => ⟨0, [mode], Addressing.onOne f⟩
  | given mode f => ⟨1, [mode], Addressing.onOne f⟩
  | binary mode₁ mode₂ f => ⟨0, [mode₁, mode₂], Addressing.onTwo f⟩
  | ternary mode₁ mode₂ mode₃ f => ⟨0, [mode₁, mode₂, mode₃], Addressing.onThree f⟩

theorem arity_addressing (op : Operator) : op.addressing.arity = op.arity := by
  cases op <;> rfl

/-- What an operator gives is what the rule gives before it comes to the
    destination. -/
theorem eval_eq (op : Operator) (m : Memory) (args : List Value) :
    op.eval m args =
      if args.length + 1 < op.addressing.arity ∨ args.length < op.addressing.least then
        .error (.argumentCount args.length)
      else op.addressing.operands m args >>= op.addressing.apply := by
  -- By the number of arguments: what matters is whether it is below the arity,
  -- and by how much.
  cases op with
  | unary mode f | given mode f =>
    cases args with
    | nil => rfl
    | cons a rest =>
      rw [if_neg (by simp [addressing, Addressing.arity]),
        Addressing.operands_of_le _ m _ (by simp [addressing, Addressing.arity])]
      simp [eval, addressing, Addressing.arity, Addressing.onOne]
  | binary mode₁ mode₂ f =>
    rcases args with _ | ⟨a, _ | ⟨b, rest⟩⟩
    · rfl
    · rw [if_neg (by simp [addressing, Addressing.arity]),
        Addressing.operands_of_lt _ m _ (by simp [addressing, Addressing.arity])]
      simp [eval, addressing, Addressing.arity, Addressing.onTwo]
    · rw [if_neg (by simp [addressing, Addressing.arity]),
        Addressing.operands_of_le _ m _ (by simp [addressing, Addressing.arity])]
      simp [eval, addressing, Addressing.arity, Addressing.onTwo]
  | ternary mode₁ mode₂ mode₃ f =>
    rcases args with _ | ⟨a, _ | ⟨b, _ | ⟨c, rest⟩⟩⟩
    · rfl
    · rfl
    · rw [if_neg (by simp [addressing, Addressing.arity]),
        Addressing.operands_of_lt _ m _ (by simp [addressing, Addressing.arity])]
      simp [eval, addressing, Addressing.arity, Addressing.onThree]
    · rw [if_neg (by simp [addressing, Addressing.arity]),
        Addressing.operands_of_le _ m _ (by simp [addressing, Addressing.arity])]
      simp [eval, addressing, Addressing.arity, Addressing.onThree]

/-- An operator runs by the rule. -/
theorem run_eq (op : Operator) (m : Memory) (args : List Value) :
    op.run m args = op.addressing.run m args := by
  rw [run, Addressing.run, eval_eq, arity_addressing]
  simp only [Memory.assign_eq]
  split
  · rfl
  · simp only [bind_assoc]

end Operator

/-- The commands of the table are operators, each with its own rule. -/
theorem Addressing.exists_operator {c : Command} {a : Addressing} (h : ofCommand? c = some a) :
    ∃ op, c.action = .operate op ∧ op.addressing = a := by
  cases c <;> cases h <;> exact ⟨_, rfl, rfl⟩

/-- The commands of the table follow the rule: a command changes the memory as
    the rule says, and nothing else, and the run goes on at the next line; or it
    ends in the fault of the rule, and changes nothing. -/
theorem Machine.act_eq_addressing {σ : Type} {c : Command} {a : Addressing}
    (h : Addressing.ofCommand? c = some a) (host : Host σ) (p : Program) (i : Nat)
    (args : List Value) (m : Machine σ) :
    act host p i args c.action m = match a.run m.memory args with
      | .ok memory => (.ok .next, { m with memory })
      | .error fault => (.error fault, m) := by
  obtain ⟨op, hc, rfl⟩ := Addressing.exists_operator h
  rw [act_eq, hc, ← op.run_eq]
  cases hr : op.run m.memory args with
  | ok memory => simp [Action.effect, hr, Effect.apply]
  | error fault => simp [Action.effect, hr, Action.spent]

/-- The register stands for the text as it is: of `%1`, the character at the
    index that the argument `%1` gives. -/
theorem Machine.act_strGet_register :
    let m : Machine (Array Call) :=
      { memory := (Memory.start [.text "T", .integer 1] {}).put 100 (.text "%1")
        echo := true
        generator := .ofSeed 0
        host := #[] }
    Addressing.ofCommand? .strGet =
        some ⟨0, [.composite, .native], Addressing.onTwo Value.charAt⟩ ∧
      act Host.trace ⟨#[]⟩ 0 [.text "%1"] Command.strGet.action m =
        (.ok .next, { m with memory := m.memory.put 100 (.integer 49) }) := by
  intro m
  have hr : Addressing.run ⟨0, [.composite, .native], Addressing.onTwo Value.charAt⟩ m.memory
      [.text "%1"] = .ok (m.memory.put 100 (.integer 49)) :=
    Fault.eq_ok_of_toOption (by decide +kernel)
  refine ⟨rfl, ?_⟩
  rw [act_eq_addressing (c := .strGet) rfl, hr]

end SimpleBatch
