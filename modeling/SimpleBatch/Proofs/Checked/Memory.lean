import SimpleBatch.Proofs.Checked.Reading
import SimpleBatch.Proofs.Addressing
import SimpleBatch.Proofs.Template
import SimpleBatch.Proofs.Zones

/-!
# Memory with checks

How a command finds its operands in memory, with a check at every access: at
every slot that is read or written, at every place in a list of operands, and at
every number that has to fit into the bits it is given. A computation with
checks is one in `Checked`: `none` if a check fails, and otherwise a value or a
fault.

`Checked.Passes x y` says that no check of `x` fails and that `x` comes to what
`y` does. It is proved of each function here and the one that it stands for:

* `Checked.start_eq`: the memory of a run is set up slot by slot;
* `Checked.passes_resolve`: references are resolved without a fallback, since
  an argument has one digit, and a name has one of the 107 slots as long as
  there are no more than 90 names;
* `Checked.passes_assign`: a result is written to a slot that there is;
* `Checked.passes_operands`: the operands of a command are filled in at places
  that exist.
-/

namespace SimpleBatch

/-- A computation with checks: nothing if a check fails. -/
abbrev Checked (α : Type) := ExceptT Fault Option α

namespace Checked

/-! ## Computations with checks -/

section Passes

variable {α β : Type}

/-- A check. -/
def check (o : Option α) : Checked α :=
  liftM o

/-- No check fails, and the computation comes to the same as another one. -/
def Passes (x : Checked α) (y : Except Fault α) : Prop :=
  x.run = some y

theorem run_bind (x : Checked α) (f : α → Checked β) :
    (x >>= f).run = x.run.bind fun
      | .ok a => (f a).run
      | .error fault => some (.error fault) := by
  cases x with
  | none => rfl
  | some y => cases y <;> rfl

namespace Passes

theorem pure (a : α) : Passes (Pure.pure a) (.ok a) := rfl

theorem throw (fault : Fault) : Passes (MonadExcept.throw fault : Checked α) (.error fault) := rfl

theorem ofExcept (y : Except Fault α) : Passes (MonadExcept.ofExcept y : Checked α) y := by
  cases y <;> rfl

/-- What comes after a computation only has to pass for what it comes to. -/
theorem bind {x : Checked α} {y : Except Fault α} {f : α → Checked β} {g : α → Except Fault β}
    (hx : Passes x y) (hf : ∀ a, y = .ok a → Passes (f a) (g a)) : Passes (x >>= f) (y >>= g) := by
  unfold Passes at hx ⊢
  rw [run_bind, hx]
  cases y with
  | ok a => exact hf a rfl
  | error fault => rfl

theorem bind_map {x : Checked α} {y : Except Fault α} {f : α → Checked β} {g : α → β}
    (hx : Passes x y) (hf : ∀ a, y = .ok a → Passes (f a) (.ok (g a))) :
    Passes (x >>= f) (y.map g) := by
  have hmap : y.map g = y >>= fun a => .ok (g a) := by cases y <;> rfl
  rw [hmap]
  exact hx.bind hf

theorem map {x : Checked α} {y : Except Fault α} (hx : Passes x y) (f : α → β) :
    Passes (f <$> x) (y.map f) := by
  rw [← bind_pure_comp]
  exact hx.bind_map fun a _ => pure (f a)

/-- A check that does not fail gives its value to what comes after it. -/
theorem check {o : Option α} {a : α} {f : α → Checked β} {y : Except Fault β} (ho : o = some a)
    (hf : Passes (f a) y) : Passes (Checked.check o >>= f) y := by
  subst ho
  exact hf

theorem of_check {o : Option α} {a : α} (ho : o = some a) : Passes (Checked.check o) (.ok a) := by
  subst ho
  rfl

theorem mapM {f : α → Checked β} {g : α → Except Fault β} {xs : List α}
    (h : ∀ a ∈ xs, Passes (f a) (g a)) : Passes (xs.mapM f) (xs.mapM g) := by
  induction xs with
  | nil => rfl
  | cons a xs ih =>
    rw [List.mapM_cons, List.mapM_cons]
    refine (h a List.mem_cons_self).bind fun b _ => ?_
    exact (ih fun c hc => h c (List.mem_cons_of_mem _ hc)).bind fun bs _ => pure (b :: bs)

end Passes

end Passes

/-- The list with another element at a position, which has to be one of it. -/
def update? {α : Type} (xs : List α) (i : Nat) (a : α) : Option (List α) :=
  if i < xs.length then some (xs.set i a) else none

/-- An integer that has to lie between two others. -/
def within? (lo hi n : Int) : Option Int :=
  if lo ≤ n ∧ n ≤ hi then some n else none

/-- An integer that has to fit into 32 bits with a sign. -/
def int32? (n : Int) : Option Int :=
  within? (-0x80000000) 0x7FFFFFFF n

/-! ## Memory -/

section Memory

open Memory

variable (m : Memory)

/-- The value of a slot, which has to be one of the memory. -/
def slot? (slot : Nat) : Option Value :=
  index? m.slots.toList slot

/-- The memory with a value in a slot, which has to be one of the memory. -/
def put? (slot : Nat) (value : Value) : Option Memory :=
  if slot < 107 then some (m.put slot value) else none

/-- The memory of a run that starts: the arguments and zeros after them, and then
    the environment is written, slot by slot. -/
def start (args : List Value) (env : Environment) : Option Memory := do
  let m : Memory :=
    { slots := Vector.ofFn fun slot => (args.take 10).getD slot (.integer 0), names := [] }
  let m ← put? m 101 (.text env.date)
  let m ← put? m 102 (.text env.time)
  let m ← put? m 103 (.ofBool env.inDesigner)
  let m ← put? m 104 (.ofBool env.inLevel)
  let m ← put? m 105 (.text env.levelName)
  put? m 106 (.text env.mapName)

/-- The memory with a value written to an address that a script computed. -/
def store (address : Int32) (value : Value) : Checked Memory :=
  if 0 ≤ address ∧ address.toInt.toNat < 107 then
    let slot := address.toInt.toNat
    if firstVariable ≤ slot ∧ slot ≤ registerSlot then check (put? m slot value)
    else throw (.readOnlySlot slot)
  else throw (.addressOutside address)

/-- The memory in which the next slot has a name and a value. -/
def declare (name : String) (value : Value) : Checked Memory := do
  let slot := firstVariable + m.names.length
  if slot < registerSlot then
    if isName name then
      let m' ← check (put? m slot value)
      return { m' with names := m.names ++ [name] }
    else throw (.invalidName name)
  else throw .memoryExhausted

theorem slot?_eq (slot : Nat) : slot? m slot = m.get? slot := by
  simp [slot?, index?, get?]

theorem slot?_of_lt {slot : Nat} (h : slot < 107) : slot? m slot = some (m.read slot) := by
  rw [slot?_eq, Memory.read]
  simp [get?, h]

theorem slot?_register : slot? m registerSlot = some m.register := by
  rw [slot?_eq]
  simp [get?, register, registerSlot]

theorem put?_eq {slot : Nat} (h : slot < 107) (value : Value) :
    put? m slot value = some (m.put slot value) :=
  if_pos h

theorem getElem_put {slot i : Nat} (hi : i < 107) (value : Value) :
    (m.put slot value).slots[i] = if slot = i then value else m.slots[i] := by
  simp [put, Vector.getElem_setIfInBounds]

theorem ext_slots {m m' : Memory} (hs : ∀ i (hi : i < 107), m.slots[i] = m'.slots[i])
    (hn : m.names = m'.names) : m = m' := by
  cases m
  cases m'
  cases hn
  exact congrArg (Memory.mk · _) (Vector.ext hs)

/-- The slots that are written at the start are those of the environment. -/
theorem start_eq (args : List Value) (env : Environment) :
    start args env = some (.start args env) := by
  simp only [start, put?_eq _ (show 101 < 107 by decide), put?_eq _ (show 102 < 107 by decide),
    put?_eq _ (show 103 < 107 by decide), put?_eq _ (show 104 < 107 by decide),
    put?_eq _ (show 105 < 107 by decide), put?_eq _ (show 106 < 107 by decide),
    Option.bind_eq_bind, Option.bind_some, Option.some_inj]
  refine ext_slots (fun i hi => ?_) rfl
  simp only [getElem_put _ hi, Memory.start, Vector.getElem_ofFn]
  by_cases hargs : i < 10
  · have henv : ∀ n, 100 < n → n ≠ i := by omega
    rw [initial_of_lt hargs]
    simp [henv, hargs]
  · have hrest : (args.take 10).getD i (.integer 0) = .integer 0 := by
      rw [List.getD_eq_getElem?_getD, List.getElem?_eq_none (by rw [List.length_take]; omega)]
      rfl
    unfold initial
    rw [if_neg (show ¬i < firstVariable from hargs), hrest]
    split_ifs
    iterate 6 · subst i; rfl
    split <;> first | contradiction | rfl

/-- A slot that can be written is one of the memory. -/
theorem passes_store (address : Int32) (value : Value) :
    Passes (store m address value) (m.store address value) := by
  simp only [store, Memory.store]
  split
  · split
    · next h =>
      rw [put?_eq m (Nat.lt_of_le_of_lt h.2 (by decide)), m.set_eq_put]
      rfl
    · exact .throw _
  · exact .throw _

/-- The next slot to be named comes before the register. -/
theorem passes_declare (name : String) (value : Value) :
    Passes (declare m name value) ((m.declare name value).map (·.2)) := by
  simp only [declare, Memory.declare]
  split
  · next h =>
    cases isName name with
    | true =>
      refine .check (put?_eq m (Nat.lt_trans h (by decide)) value) ?_
      rw [m.set_eq_put]
      exact .pure _
    | false => exact .throw _
  · exact .throw _

end Memory

/-! ## Templates -/

section Templates

open Memory

variable (m : Memory)

/-- The value that a reference refers to. There is no value to fall back to: a
    slot that is referred to has to be one of the memory. -/
def dereference : Reference → Checked Value
  | .argument index => check (slot? m index)
  | .value name => do
    let slot ← ofExcept (m.slotOf name)
    check (slot? m slot)
  | .address name => do
    let slot ← ofExcept (m.slotOf name)
    return .integer (.ofInt (← check (int32? slot)))

/-- The text that a piece of a template is replaced by. -/
def expand : Piece → Checked String
  | .literal c => return String.singleton c
  | .reference r => Value.render <$> dereference m r

/-- The value that an argument stands for. -/
def resolve (mode : Substitution) (value : Value) : Checked Value :=
  match value with
  | .text s =>
    match mode, Piece.parse s.toList with
    | .native, [.reference r] => dereference m r
    | _, pieces => (fun texts => .text (String.join texts)) <$> pieces.mapM (expand m)
  | _ => return value

/-- The memory with a value written to the slot that a destination stands for. -/
def assign (value : Value) (destination : Option Value) : Checked Memory :=
  match destination with
  | none => check (put? m registerSlot value)
  | some d => do
    match ← resolve m .native d with
    | .integer address => store m address value
    | other => throw (.destinationKind other.kind)

/-- An argument is given by one digit. -/
theorem argument_lt_of_mem_parse {cs : List Char} {index : Nat}
    (h : .reference (.argument index) ∈ Piece.parse cs) : index < 10 := by
  have hofName : ∀ cs, Reference.ofName cs ≠ .argument index := by
    intro cs
    unfold Reference.ofName
    split <;> simp
  fun_induction Piece.parse cs with
  | case1 => simp at h
  | case2 => simp at h
  | case3 rest ih => exact ih (by simpa using h)
  | case4 c rest hc hd ih =>
    rcases List.mem_cons.1 h with h | h
    · cases h
      exact Text.digit_lt hd
    · exact ih h
  | case5 c rest hc hd he => simp at h
  | case6 c rest hc hd d rest' he ih =>
    rcases List.mem_cons.1 h with h | h
    · exact absurd (Piece.reference.inj h).symm (hofName _)
    · exact ih h
  | case7 c rest _ _ ih => exact ih (by simpa using h)

variable {m}

/-- As long as there is a slot for each name, a name stands for a slot of the
    memory. -/
theorem slot_lt_of_slotOf (hm : m.names.length ≤ 90) {name : String} {slot : Nat}
    (h : m.slotOf name = .ok slot) : slot < 107 := by
  have hs : m.lookup? name = some slot := by
    unfold slotOf at h
    split at h <;> cases h
    assumption
  simp only [lookup?, Option.or_eq_some_iff, Option.map_eq_some_iff] at hs
  rcases hs with hs | ⟨-, i, hi, rfl⟩
  · obtain ⟨l₁, l₂, hl, -⟩ := List.lookup_eq_some_iff.1 hs
    have hmem : (name, slot) ∈ reserved := hl ▸ List.mem_append_right l₁ List.mem_cons_self
    exact (by decide : ∀ e ∈ reserved, e.2 < 107) _ hmem
  · have hf : firstVariable = 10 := rfl
    obtain ⟨hlt, -⟩ := List.findIdx?_eq_some_iff_getElem.1 hi
    omega

theorem passes_dereference (hm : m.names.length ≤ 90) {r : Reference}
    (hr : ∀ index, r = .argument index → index < 10) :
    Passes (dereference m r) (m.dereference r) := by
  cases r with
  | argument index =>
    have hlt := hr index rfl
    rw [dereference, slot?_of_lt m (by omega)]
    rfl
  | value name =>
    refine (Passes.ofExcept (m.slotOf name)).bind_map fun slot hs => ?_
    rw [slot?_of_lt m (slot_lt_of_slotOf hm hs)]
    rfl
  | address name =>
    refine (Passes.ofExcept (m.slotOf name)).bind_map fun slot hs => ?_
    have hlt := slot_lt_of_slotOf hm hs
    refine .check (if_pos (by omega) : int32? slot = some (slot : Int)) ?_
    exact .pure _

/-- With more names than slots for them, the check of a name could fail. -/
example : (dereference { Memory.start [] {} with names := List.replicate 97 "a" ++ ["b"] }
    (.value "b")).run.isNone := by decide +kernel

/-- A template is resolved without a fallback. -/
theorem passes_resolve (hm : m.names.length ≤ 90) (mode : Substitution) (value : Value) :
    Passes (resolve m mode value) (m.resolve mode value) := by
  cases value with
  | integer n => exact .pure _
  | float x => exact .pure _
  | text s =>
    have hpieces : ∀ r, .reference r ∈ Piece.parse s.toList →
        Passes (dereference m r) (m.dereference r) := fun r hr =>
      passes_dereference hm fun index h => argument_lt_of_mem_parse (h ▸ hr)
    have hexpand : Passes ((Piece.parse s.toList).mapM (expand m))
        ((Piece.parse s.toList).mapM m.expand) := by
      refine .mapM fun piece hp => ?_
      cases piece with
      | literal c => exact .pure _
      | reference r => exact (hpieces r hp).map _
    simp only [resolve, Memory.resolve]
    split
    · next r hr =>
      rw [substitute_native_reference hr]
      exact hpieces r (hr ▸ List.mem_cons_self)
    · next hne =>
      rw [substitute_of_ne fun hmode r hr => hne r hmode hr]
      exact hexpand.map _

/-- A result is written to a slot of the memory. -/
theorem passes_assign (hm : m.names.length ≤ 90) (value : Value) (d : Option Value) :
    Passes (assign m value d) (m.assign value d) := by
  cases d with
  | none =>
    rw [assign, Memory.assign, put?_eq m (by decide), setRegister_eq]
    rfl
  | some d =>
    have hassign : m.assign value (some d) = m.resolve .native d >>= fun v =>
        match v with
        | .integer address => m.store address value
        | other => .error (.destinationKind other.kind) := by
      rw [Memory.assign]
      cases m.resolve .native d with
      | error fault => rfl
      | ok v => cases v <;> rfl
    rw [hassign, assign]
    refine (passes_resolve hm .native d).bind fun v _ => ?_
    cases v with
    | integer address => exact passes_store m address value
    | float x => exact .throw _
    | text s => exact .throw _

end Templates

/-! ## Operands -/

section Operands

open Memory

variable (m : Memory)

/-- The list of operands after the arguments have been written to it, one by
    one: the argument that is `j` places further comes to the place `skip + j`,
    and is substituted as this place says. -/
def fill (modes : List Substitution) (skip : Nat) :
    (args : List Value) → (j : Nat) → (out : List Value) → Checked (List Value)
  | [], _, out => return out
  | arg :: args, j, out => do
    let value ← resolve m (← check (index? modes (skip + j))) arg
    fill modes skip args (j + 1) (← check (update? out (skip + j) value))

/-- The operands of a command: zeros at first, and the register in the first
    place if one argument is missing. -/
def operands (modes : List Substitution) (args : List Value) : Checked (List Value) := do
  let given := min args.length modes.length
  if given + 1 < modes.length then throw (.argumentCount args.length)
  let skip ← check (sub? modes.length given)
  let zeros := List.replicate modes.length (.integer 0)
  let out ←
    if skip = 1 then check (update? zeros 0 (← check (slot? m registerSlot))) else pure zeros
  fill m modes skip (args.take given) 0 out

/-- The operand of a command that needs none. -/
def operand (mode : Substitution) (args : List Value) : Checked Value := do
  check (index? (← operands m [mode] args) 0)

/-- The operand of a command that needs one. -/
def required (mode : Substitution) (args : List Value) : Checked Value := do
  if args.length < 1 then throw (.argumentCount args.length)
  resolve m mode (← check (index? args 0))

variable {m}

/-- The first result of a list belongs to those that are done when the others
    are computed. -/
theorem map_append_mapM_cons {α β : Type} (f : α → Except Fault β) (a : α) (xs : List α)
    (done : List β) :
    ((a :: xs).mapM f).map (done ++ ·) = f a >>= fun b => (xs.mapM f).map (done ++ [b] ++ ·) := by
  rw [List.mapM_cons]
  cases f a with
  | error fault => rfl
  | ok b => cases xs.mapM f <;> simp

/-- The places that are still to be filled are as many as the arguments that
    are left. -/
theorem passes_fill (hm : m.names.length ≤ 90) (modes : List Substitution) (skip : Nat)
    {args : List Value} {j : Nat} {done rest : List Value} (hdone : done.length = skip + j)
    (hrest : rest.length = args.length) (hmodes : skip + j + args.length = modes.length) :
    Passes (fill m modes skip args j (done ++ rest))
      (((args.zip (modes.drop (skip + j))).mapM fun (arg, mode) => m.resolve mode arg).map
        (done ++ ·)) := by
  induction args generalizing j done rest with
  | nil =>
    obtain rfl := List.eq_nil_of_length_eq_zero hrest
    exact .pure _
  | cons arg args ih =>
    obtain ⟨old, rest, rfl⟩ := List.exists_cons_of_length_eq_add_one hrest
    simp only [List.length_cons] at hrest hmodes
    have hlt : skip + j < modes.length := by omega
    have hput : ∀ v, update? (done ++ old :: rest) (skip + j) v = some (done ++ [v] ++ rest) := by
      intro v
      rw [update?, if_pos (by simp [hdone]), ← hdone, List.set_append_right _ _ Nat.le.refl]
      simp
    rw [List.drop_eq_getElem_cons hlt, List.zip_cons_cons, map_append_mapM_cons]
    refine .check (index?_eq hlt) ((passes_resolve hm _ arg).bind fun v _ => .check (hput v) ?_)
    exact ih (by simp [hdone, Nat.add_assoc]) (by omega) (by omega)

/-- As many operands can be missing as the register can stand for, so no number
    gets negative; and every place that is written is one of the list. -/
theorem passes_operands (hm : m.names.length ≤ 90) (a : Addressing) (args : List Value) :
    Passes (operands m a.modes args)
      (if args.length + 1 < a.arity then .error (.argumentCount args.length)
        else a.operands m args) := by
  have harity : a.arity = a.modes.length := rfl
  unfold operands
  by_cases hfew : args.length + 1 < a.arity
  · rw [if_pos hfew, if_pos (by omega)]
    exact .throw _
  · rw [if_neg hfew, if_neg (by omega)]
    refine .check (sub?_eq (Nat.min_le_right _ _)) ?_
    by_cases hlt : args.length < a.arity
    · -- One operand is missing: the register is done.
      have hlen : a.modes.length = args.length + 1 := by omega
      have hgiven : min args.length a.modes.length = args.length := by omega
      have hzeros : update? (List.replicate a.modes.length (.integer 0)) 0 m.register =
          some ([m.register] ++ List.replicate args.length (.integer 0)) := by
        rw [hlen, update?, if_pos (by simp), List.replicate_succ]
        rfl
      rw [hgiven, if_pos (by omega), List.take_length, Addressing.operands_of_lt _ m _ hlt]
      refine .check (slot?_register m) (.check hzeros ?_)
      rw [← harity]
      exact passes_fill (j := 0) hm a.modes (a.arity - args.length) (by simp; omega) (by simp)
        (by omega)
    · -- All operands are given: nothing is done.
      have hgiven : min args.length a.modes.length = a.modes.length := by omega
      rw [hgiven, if_neg (by omega), Addressing.operands_of_le _ m _ (by omega),
        Nat.sub_self, pure_bind]
      have hdone : ([] : List Value).length = 0 + 0 := rfl
      have hrest : (List.replicate a.modes.length (Value.integer 0)).length =
          (args.take a.modes.length).length := by
        simp
        omega
      have hmodes : 0 + 0 + (args.take a.modes.length).length = a.modes.length := by
        simp
        omega
      have hfill := passes_fill hm a.modes 0 hdone hrest hmodes
      have hmap : ∀ y : Except Fault (List Value), y.map ([] ++ ·) = y := fun y => by
        cases y <;> rfl
      rwa [hmap] at hfill

theorem passes_operand (hm : m.names.length ≤ 90) (mode : Substitution) (args : List Value) :
    Passes (operand m mode args) (m.operand mode args) := by
  let a : Addressing := ⟨0, [mode], Addressing.onOne .ok⟩
  have hone : (if args.length + 1 < a.arity then .error (.argumentCount args.length)
      else a.operands m args) = (m.operand mode args).map fun v => [v] := by
    cases args with
    | nil => rfl
    | cons arg rest =>
      rw [if_neg (by simp [a, Addressing.arity]),
        Addressing.operands_of_le a m _ (by simp [a, Addressing.arity])]
      cases h : m.resolve mode arg <;> simp [a, Addressing.arity, Memory.operand, h]
  have hback : m.operand mode args =
      ((m.operand mode args).map fun v => [v]) >>= Addressing.onOne .ok := by
    cases m.operand mode args <;> rfl
  rw [hback, ← hone]
  refine (passes_operands hm a args).bind fun out hout => ?_
  rw [hone] at hout
  obtain ⟨v, -, rfl⟩ := Fault.map_eq_ok.1 hout
  exact .of_check rfl

theorem passes_required (hm : m.names.length ≤ 90) (mode : Substitution) (args : List Value) :
    Passes (required m mode args) (m.required mode args) := by
  cases args with
  | nil => exact .throw _
  | cons a rest => exact passes_resolve hm mode a

end Operands

end Checked

end SimpleBatch
