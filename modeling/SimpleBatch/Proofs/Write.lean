import SimpleBatch.Proofs.Visit

/-!
# Writes to memory

There are three ways to write to memory: to the register, to an address that a
script computed, and by a declaration. All of them put a value into one slot
(`Memory.put`), and a visit of a line does so once at most:

* `Memory.store_eq`, `Memory.declare_eq_ok`: when a value can be put, and where;
* `Memory.Written`: what one write makes of a memory;
* `Program.Visit.written`: a visit makes no more of a memory than one write.
-/

namespace SimpleBatch

namespace Memory

variable (m : Memory)

/-- The memory with a value in a slot; there is nothing beyond the last one. -/
def put (slot : Nat) (value : Value) : Memory :=
  { m with slots := m.slots.setIfInBounds slot value }

theorem get?_put_of_ne {slot i : Nat} (h : i ≠ slot) (value : Value) :
    (m.put slot value).get? i = m.get? i := by
  simp only [get?, put, Vector.getElem?_setIfInBounds]
  rw [if_neg (Ne.symm h)]

theorem set_eq_put {slot : Nat} (h : slot < 107) (value : Value) :
    m.slots.set slot value h = (m.put slot value).slots := by
  ext i hi
  rw [put, Vector.getElem_set, Vector.getElem_setIfInBounds]

theorem setRegister_eq (value : Value) : m.setRegister value = m.put registerSlot value := by
  rw [setRegister, set_eq_put]
  rfl

/-- An address can be written if it is one of a slot for general use or of the
    register. -/
theorem store_eq (address : Int32) (value : Value) :
    m.store address value =
      if 10 ≤ address.toInt ∧ address.toInt ≤ 100 then .ok (m.put address.toInt.toNat value)
      else if 0 ≤ address.toInt ∧ address.toInt < 107 then
        .error (.readOnlySlot address.toInt.toNat)
      else .error (.addressOutside address) := by
  have hn : (0 : Int32) ≤ address ↔ 0 ≤ address.toInt := Int32.le_iff_toInt_le
  have hf : firstVariable = 10 := rfl
  have hr : registerSlot = 100 := rfl
  simp only [store, hn]
  by_cases hz : 10 ≤ address.toInt ∧ address.toInt ≤ 100
  · rw [if_pos (by omega), dif_pos (by omega), if_pos hz, set_eq_put]
    rfl
  · rw [if_neg hz, dif_neg (by omega)]
    by_cases hb : 0 ≤ address.toInt ∧ address.toInt < 107
    · rw [if_pos (by omega), if_pos hb]
    · rw [if_neg (by omega), if_neg hb]

/-- A declaration names the first slot that has no name yet, if one is left,
    and the text can be a name. -/
theorem declare_eq_ok {name : String} {value : Value} {slot : Nat} {m' : Memory} :
    m.declare name value = .ok (slot, m') ↔
      m.names.length < 90 ∧ isName name ∧ slot = 10 + m.names.length ∧
        m' = { m.put slot value with names := m.names ++ [name] } := by
  have hf : firstVariable = 10 := rfl
  have hr : registerSlot = 100 := rfl
  simp only [declare]
  by_cases hl : firstVariable + m.names.length < registerSlot
  · rw [dif_pos hl]
    cases hn : isName name with
    | true =>
      simp only [if_true, set_eq_put, Except.ok.injEq, Prod.mk.injEq, true_and]
      constructor
      · rintro ⟨rfl, rfl⟩
        exact ⟨by omega, rfl, rfl⟩
      · rintro ⟨-, rfl, rfl⟩
        exact ⟨rfl, rfl⟩
    | false => simp
  · rw [dif_neg hl]
    simp only [reduceCtorEq, false_iff]
    rintro ⟨h, -⟩
    omega

/-- What one write at most makes of a memory. -/
inductive Written : Memory → Prop
  /-- Nothing is written. -/
  | keep : Written m
  /-- A value is put into a slot for general use, or into the register. -/
  | put {slot : Nat} (value : Value) : 10 ≤ slot → slot ≤ 100 → Written (m.put slot value)
  /-- A slot gets a name and a value. -/
  | declare {name : String} (value : Value) : m.names.length < 90 → isName name →
    Written { m.put (10 + m.names.length) value with names := m.names ++ [name] }

variable {m} {m' : Memory}

/-- A result is written to the register, or to the slot that it is meant for. -/
theorem written_of_assign {value : Value} {destination : Option Value}
    (h : m.assign value destination = .ok m') : m.Written m' := by
  cases destination with
  | none =>
    rw [assign, setRegister_eq] at h
    cases h
    exact .put value (by decide) (by decide)
  | some d =>
    simp only [assign] at h
    cases hd : m.resolve .native d with
    | error fault => simp [hd] at h
    | ok v =>
      cases v with
      | integer address =>
        simp only [hd, store_eq] at h
        split at h
        · next hz =>
          cases h
          exact .put value (by omega) (by omega)
        · split at h <;> cases h
      | float x => simp [hd] at h
      | text s => simp [hd] at h

theorem written_of_declare {name : String} {value : Value} {slot : Nat}
    (h : m.declare name value = .ok (slot, m')) : m.Written m' := by
  obtain ⟨hl, hn, rfl, rfl⟩ := m.declare_eq_ok.1 h
  exact .declare value hl hn

theorem written_of_run {op : Operator} {args : List Value} (h : op.run m args = .ok m') :
    m.Written m' := by
  obtain ⟨value, -, h⟩ := Fault.bind_eq_ok.1 h
  exact written_of_assign h

theorem written_of_declareArgs {args : List Value} (h : m.declareArgs args = .ok m') :
    m.Written m' := by
  match args with
  | [] => cases h
  | [name] =>
    obtain ⟨_, hd, rfl⟩ := Fault.map_eq_ok.1 h
    exact written_of_declare hd
  | value :: name :: _ =>
    obtain ⟨v, -, h⟩ := Fault.bind_eq_ok.1 h
    obtain ⟨_, hd, rfl⟩ := Fault.map_eq_ok.1 h
    exact written_of_declare hd

end Memory

/-! ## The memory of a run -/

/-- The memory after an effect. -/
def Effect.memory (m : Memory) : Effect → Memory
  | write memory => memory
  | draw memory _ => memory
  | _ => m

variable {σ : Type}

@[simp]
theorem Effect.memory_apply (host : Host σ) (m : Machine σ) (e : Effect) :
    (e.apply host m).memory = e.memory m.memory := by
  cases e <;> rfl

@[simp]
theorem Machine.memory_echoed (host : Host σ) (m : Machine σ) (line : Line) :
    (m.echoed host line).memory = m.memory := by
  unfold echoed
  split <;> rfl

/-- An action makes no more of a memory than one write. -/
theorem Action.written_of_effect {p : Program} {i : Nat} {args : List Value} {m : Memory}
    {g : Generator} {a : Action} {e : Effect} {flow : Flow}
    (h : a.effect p i args m g = .ok (e, flow)) : m.Written (e.memory m) := by
  cases yields_of_effect h with
  | operate hm => exact Memory.written_of_run hm
  | declare hm => exact Memory.written_of_declareArgs hm
  | draw _ hm => exact Memory.written_of_assign hm
  | _ => exact .keep

/-- A visit makes no more of the memory than one write; in a fault, the memory
    is as it was. -/
theorem Program.Visit.written {host : Host σ} {p : Program} {r : Run σ} {entry : Entry}
    {x : Progress σ} (h : p.Visit host r entry x) :
    r.machine.memory.Written x.run.machine.memory := by
  cases h with
  | blank => exact .keep
  | unknown => exact .keep
  | command _ _ he =>
    rw [Run.run_follow_machine, Machine.memory_echoed, Effect.memory_apply]
    exact Action.written_of_effect he
  | fault => exact .keep

end SimpleBatch
