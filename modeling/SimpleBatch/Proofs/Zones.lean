import SimpleBatch.Proofs.Write

/-!
# The zones of memory

A script computes the addresses that it writes to, and may write any number of
times. Still the zones of memory keep their meaning in every run, however long
it is and however it ends (`Program.zones_resume`): the arguments and the
environment are what they were at the start, and only slots for general use
have names, at most one for each slot.

The invariant is `Memory.Zoned`. It holds at the start, and one write keeps it
(`Memory.Zoned.written`).
-/

namespace SimpleBatch

namespace Memory

variable {args : List Value} {env : Environment} {m m' : Memory}

/-- What holds of the memory of every run that was started with these arguments
    in this environment. -/
structure Zoned (args : List Value) (env : Environment) (m : Memory) : Prop where
  /-- The slots outside of general use, but for the register, never change. -/
  fixed : ∀ slot, slot < 10 ∨ 100 < slot → m.get? slot = (start args env).get? slot
  /-- There is a slot for each name. -/
  names_length : m.names.length ≤ 90
  /-- Every name can be declared. -/
  names_valid : ∀ name ∈ m.names, isName name

theorem zoned_start (args : List Value) (env : Environment) : Zoned args env (start args env) where
  fixed _ _ := rfl
  names_length := Nat.zero_le _
  names_valid _ hn := absurd hn List.not_mem_nil

/-- One write keeps the zones. -/
theorem Zoned.written (h : Zoned args env m) (hw : m.Written m') : Zoned args env m' := by
  cases hw with
  | keep => exact h
  | put value hlo hhi =>
    refine ⟨fun slot hs => ?_, h.names_length, h.names_valid⟩
    rw [get?_put_of_ne m (by omega) value]
    exact h.fixed slot hs
  | declare value hl hn =>
    refine ⟨fun slot hs => ?_, ?_, fun name hm => ?_⟩
    · -- The slot that is named lies before the register, as there are fewer
      -- names than slots.
      exact (get?_put_of_ne m (by omega) value).trans (h.fixed slot hs)
    · simp only [List.length_append, List.length_singleton]
      omega
    · rcases List.mem_append.1 hm with hm | hm
      · exact h.names_valid name hm
      · rw [List.mem_singleton.1 hm]
        exact hn

theorem get?_start {slot : Nat} (h : slot < 107) :
    (start args env).get? slot = some (initial args env slot) := by
  simp [get?, start, h]

theorem initial_of_lt {slot : Nat} (h : slot < 10) :
    initial args env slot = args.getD slot (.integer 0) :=
  if_pos h

/-- There are 107 slots. -/
theorem isSome_get? (m : Memory) (slot : Nat) : (m.get? slot).isSome ↔ slot < 107 := by
  simp [get?]

/-- A name is not empty, and begins neither with a percent sign nor with a
    digit. -/
theorem isName_iff {name : String} :
    isName name ↔ ∃ c cs, name.toList = c :: cs ∧ c ≠ '%' ∧ ¬('0' ≤ c ∧ c ≤ '9') := by
  have hd : ∀ c : Char, c.isDigit ↔ '0' ≤ c ∧ c ≤ '9' := fun c => by
    rw [Char.isDigit, Bool.and_eq_true, decide_eq_true_eq, decide_eq_true_eq]
    rfl
  unfold isName
  cases name.toList with
  | nil => simp
  | cons c cs =>
    have hb : (!c.isDigit) = true ↔ ¬('0' ≤ c ∧ c ≤ '9') := by
      rw [← hd c, Bool.not_eq_true', Bool.not_eq_true]
    rw [Bool.and_eq_true, bne_iff_ne, hb]
    exact ⟨fun h => ⟨c, cs, rfl, h⟩, fun ⟨_, _, he, h⟩ => (List.cons.inj he).1 ▸ h⟩

end Memory

/-! ## Runs -/

namespace Program

variable {σ : Type} (host : Host σ) (p : Program)

/-- A visit keeps the zones, so a run does. -/
theorem zoned_resume (setup : Setup) (invocation : Invocation) (s : σ) (fuel : Nat) :
    Memory.Zoned invocation.values setup.environment
      (p.resume host fuel (.start setup invocation s)).run.machine.memory :=
  resume_invariant (P := fun r =>
      Memory.Zoned invocation.values setup.environment r.machine.memory)
    (fun _ hv hz => hz.written hv.written) fuel (Memory.zoned_start _ _)

/-- The zones of memory wherever a run comes to, also in a fault. There are 107
    slots. Slots 0 to 9 hold the arguments, the name of the script first and
    zeros after the last one, and slots 101 to 106 the environment. At most 90
    names are declared, none of them empty or with a percent sign or digit in
    front. No slot outside of 10 to 100 has changed since the start. -/
theorem zones_resume (setup : Setup) (invocation : Invocation) (s : σ) (fuel : Nat) :
    let env := setup.environment
    let m := (p.resume host fuel (.start setup invocation s)).run.machine.memory
    (∀ slot, (m.get? slot).isSome ↔ slot < 107) ∧
      (∀ slot < 10, m.get? slot = some (invocation.values.getD slot (.integer 0))) ∧
      m.get? 0 = some (.text invocation.name) ∧
      m.get? 101 = some (.text env.date) ∧
      m.get? 102 = some (.text env.time) ∧
      m.get? 103 = some (.integer (if env.inDesigner then 1 else 0)) ∧
      m.get? 104 = some (.integer (if env.inLevel then 1 else 0)) ∧
      m.get? 105 = some (.text env.levelName) ∧
      m.get? 106 = some (.text env.mapName) ∧
      m.names.length ≤ 90 ∧
      (∀ name ∈ m.names, ∃ c cs, name.toList = c :: cs ∧ c ≠ '%' ∧ ¬('0' ≤ c ∧ c ≤ '9')) ∧
      ∀ slot, m.get? slot ≠ (Memory.start invocation.values env).get? slot →
        10 ≤ slot ∧ slot ≤ 100 := by
  intro env m
  have h : Memory.Zoned invocation.values env m := zoned_resume host p setup invocation s fuel
  have hargs : ∀ slot < 10, m.get? slot = some (invocation.values.getD slot (.integer 0)) := by
    intro slot hs
    rw [h.fixed slot (.inl hs), Memory.get?_start (by omega), Memory.initial_of_lt hs]
  have henv : ∀ slot, 100 < slot → slot < 107 →
      m.get? slot = some (Memory.initial invocation.values env slot) := by
    intro slot hlo hhi
    rw [h.fixed slot (.inr hlo), Memory.get?_start hhi]
  refine ⟨m.isSome_get?, hargs, hargs 0 (by decide), henv 101 (by decide) (by decide),
    henv 102 (by decide) (by decide), henv 103 (by decide) (by decide),
    henv 104 (by decide) (by decide), henv 105 (by decide) (by decide),
    henv 106 (by decide) (by decide), h.names_length,
    fun name hn => Memory.isName_iff.1 (h.names_valid name hn), fun slot hne => ?_⟩
  have hs : ¬(slot < 10 ∨ 100 < slot) := fun hs => hne (h.fixed slot hs)
  omega

end Program

end SimpleBatch
