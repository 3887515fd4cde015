import SimpleBatch.Machine

/-!
# Computations that may end in a fault

How the two kinds of computations of a script are taken apart:

* `Except Fault α` only gives a value or a fault. What a sequence of them gives
  is read off its parts (`Fault.bind_eq_ok`);
* `Exec σ α` also changes a machine. Applied to a machine it is a pair of a
  result and the machine after it, and each of its primitives is such a pair by
  definition (`Exec.bind_apply` and the lemmas after it).
-/

namespace SimpleBatch

variable {σ α β : Type}

namespace Fault

@[simp]
theorem ok_bind (a : α) (f : α → Except Fault β) : (Except.ok a >>= f) = f a := rfl

@[simp]
theorem error_bind (fault : Fault) (f : α → Except Fault β) :
    ((Except.error fault : Except Fault α) >>= f) = .error fault := rfl

@[simp]
theorem pure_eq (a : α) : (pure a : Except Fault α) = .ok a := rfl

@[simp]
theorem ok_map (f : α → β) (a : α) : (Except.ok a : Except Fault α).map f = .ok (f a) := rfl

@[simp]
theorem error_map (f : α → β) (fault : Fault) :
    (Except.error fault : Except Fault α).map f = .error fault := rfl

/-- A sequence gives a value if both of its parts do. -/
theorem bind_eq_ok {x : Except Fault α} {f : α → Except Fault β} {b : β} :
    (x >>= f) = .ok b ↔ ∃ a, x = .ok a ∧ f a = .ok b := by
  cases x <;> simp

/-- And a fault if one of them does, the first one in the first place. -/
theorem bind_eq_error {x : Except Fault α} {f : α → Except Fault β} {fault : Fault} :
    (x >>= f) = .error fault ↔ x = .error fault ∨ ∃ a, x = .ok a ∧ f a = .error fault := by
  cases x <;> simp

theorem map_eq_ok {x : Except Fault α} {f : α → β} {b : β} :
    x.map f = .ok b ↔ ∃ a, x = .ok a ∧ f a = b := by
  cases x <;> simp

theorem map_eq_error {x : Except Fault α} {f : α → β} {fault : Fault} :
    x.map f = .error fault ↔ x = .error fault := by
  cases x <;> simp

theorem eq_ok_of_toOption {x : Except Fault α} {a : α} (h : x.toOption = some a) : x = .ok a := by
  cases x with
  | error fault => cases h
  | ok b => exact congrArg _ (Option.some.inj h)

end Fault

namespace Exec

variable (m : Machine σ)

theorem bind_apply (x : Exec σ α) (f : α → Exec σ β) :
    (x >>= f) m = match x m with
      | (.ok a, m') => f a m'
      | (.error fault, m') => (.error fault, m') := by
  change ExceptT.bind x f m = _
  simp only [ExceptT.bind, ExceptT.mk, bind, StateT.bind]
  rcases x m with ⟨_ | _, _⟩ <;> rfl

theorem map_apply (f : α → β) (x : Exec σ α) :
    (f <$> x) m = match x m with
      | (.ok a, m') => (.ok (f a), m')
      | (.error fault, m') => (.error fault, m') := by
  rw [← bind_pure_comp, bind_apply]
  rfl

@[simp]
theorem pure_apply (a : α) : (pure a : Exec σ α) m = (.ok a, m) := rfl

@[simp]
theorem throw_apply (fault : Fault) : (throw fault : Exec σ α) m = (.error fault, m) := rfl

@[simp]
theorem get_apply : (get : Exec σ (Machine σ)) m = (.ok m, m) := rfl

@[simp]
theorem set_apply (m' : Machine σ) : (set m' : Exec σ PUnit) m = (.ok ⟨⟩, m') := rfl

@[simp]
theorem modify_apply (f : Machine σ → Machine σ) :
    (modify f : Exec σ PUnit) m = (.ok ⟨⟩, f m) := rfl

@[simp]
theorem ofExcept_apply (x : Except Fault α) : (ofExcept x : Exec σ α) m = (x, m) := by
  cases x <;> rfl

end Exec

end SimpleBatch
