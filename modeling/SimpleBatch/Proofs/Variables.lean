import SimpleBatch.Proofs.Template
import SimpleBatch.Proofs.Write

/-!
# Variables

What a declaration adds to the names of a memory (`Memory.lookup?_of_declare`) and
to its slots (`Memory.get?_of_declare`), and how a script gets at it: a new variable
can be referred to by its name, and its slot by its address
(`Memory.resolve_declared`).

A name that can be declared need not be one that can be written in a template. In
`%&x%` the ampersand asks for the slot of `x`, and in `%a%b%` the name ends after
the `a`; so the value of a variable `&x` or `a%b` is out of reach
(`Memory.resolve_declared_out_of_reach`).
-/

namespace SimpleBatch.Memory

variable {m m' : Memory} {name : String} {value : Value} {slot : Nat}

/-- A declaration adds a name after the others, which come first in a search. -/
theorem lookup?_of_declare (h : m.declare name value = .ok (slot, m')) (n : String) :
    m'.lookup? n = (m.lookup? n).or (if name = n then some slot else none) := by
  obtain ⟨-, -, rfl, rfl⟩ := m.declare_eq_ok.1 h
  have hidx : (m.names ++ [name]).idxOf? n =
      (m.names.idxOf? n).or (if name = n then some m.names.length else none) := by
    simp [List.idxOf?, List.findIdx?_append]
  simp only [lookup?, hidx, Option.map_or, Option.or_assoc]
  split <;> rfl

/-- A declaration changes one slot. -/
theorem get?_of_declare (h : m.declare name value = .ok (slot, m')) (i : Nat) :
    m'.get? i = if i = slot then some value else m.get? i := by
  obtain ⟨hl, -, rfl, rfl⟩ := m.declare_eq_ok.1 h
  have hlt : 10 + m.names.length < 107 := by omega
  simp only [get?, put, Vector.getElem?_setIfInBounds, hlt, if_true, eq_comm]

/-- A new variable is found under its name, if that was free. -/
theorem lookup?_declared (hfree : m.lookup? name = none)
    (h : m.declare name value = .ok (slot, m')) :
    m'.lookup? name = some slot := by
  rw [lookup?_of_declare h, hfree, if_pos rfl]
  rfl

theorem read_declared (h : m.declare name value = .ok (slot, m')) : m'.read slot = value := by
  rw [read, get?_of_declare h, if_pos rfl]
  rfl

/-- Of the names that can be declared, those without a percent sign and without an
    ampersand in front can be referred to. -/
theorem writable_of_isName (hn : isName name) (hp : '%' ∉ name.toList)
    (hamp : name.toList.head? ≠ some '&') : (Reference.value name).Writable := by
  obtain ⟨c, cs, hc⟩ : ∃ c cs, name.toList = c :: cs := by
    refine List.exists_cons_of_ne_nil fun hnil => ?_
    simp [isName, hnil] at hn
  simp only [isName, hc, Bool.and_eq_true, Bool.not_eq_true'] at hn
  refine ⟨fun hne => ?_, hp, fun d hd => ?_⟩
  · simp [hne] at hc
  · rw [hc] at hamp hd
    cases hd
    exact ⟨fun h => hamp (congrArg some h), by simp [hn.2]⟩

/-- A new variable can be referred to.

    If its name was free and has no percent sign, the address of the name is the
    slot of the variable; and if it does not begin with an ampersand either, the
    value of the name is the value of the variable, with its kind. -/
theorem resolve_declared {m m' : Memory} {name : String} {value : Value} {slot : Nat}
    (hfree : m.lookup? name = none) (h : m.declare name value = .ok (slot, m'))
    (hp : '%' ∉ name.toList) :
    (∃ n : Int32, n.toInt = slot ∧
      m'.resolve .native (.text ("%&" ++ name ++ "%")) = .ok (.integer n)) ∧
    (name.toList.head? ≠ some '&' →
      m'.resolve .native (.text ("%" ++ name ++ "%")) = .ok value) := by
  obtain ⟨hl, hn, hslot, -⟩ := m.declare_eq_ok.1 h
  have hlookup := lookup?_declared hfree h
  constructor
  · refine ⟨Int32.ofNat slot, Int32.toInt_ofNat_of_lt (by omega), ?_⟩
    have hw : "%&" ++ name ++ "%" = String.ofList (Reference.address name).write := by
      simp [← String.toList_inj, Reference.write]
    have hr : (Reference.address name).Writable := hp
    rw [hw, resolve_reference hr, dereference, slotOf, hlookup]
    rfl
  · intro hamp
    have hw : "%" ++ name ++ "%" = String.ofList (Reference.value name).write := by
      simp [← String.toList_inj, Reference.write]
    rw [hw, resolve_reference (writable_of_isName hn hp hamp), dereference, slotOf, hlookup]
    exact congrArg _ (read_declared h)

/-- A variable with an unusual name that holds a text of percent signs. -/
theorem resolve_declared_marks :
    let m := Memory.start [.text "T"] {}
    m.lookup? "_ &9" = none ∧ ∃ m', m.declare "_ &9" (.text "%%") = .ok (10, m') ∧
      (∃ n : Int32, n.toInt = 10 ∧ m'.resolve .native (.text "%&_ &9%") = .ok (.integer n)) ∧
      m'.resolve .native (.text "%_ &9%") = .ok (.text "%%") := by
  intro m
  have hfree : m.lookup? "_ &9" = none := by decide +kernel
  have hd : m.declare "_ &9" (.text "%%") = .ok (10, _) := rfl
  obtain ⟨ha, hv⟩ := resolve_declared hfree hd (by decide +kernel)
  exact ⟨hfree, _, hd, ha, hv (by decide +kernel)⟩

/-- Not every variable can be referred to. The value of a variable `&x` cannot: where
    it is asked for, the slot of `x` is looked up. A variable `a%b` cannot at all: a
    reference to it ends at the percent sign. -/
theorem resolve_declared_out_of_reach :
    let m := Memory.start [.text "T"] {}
    (m.lookup? "&x" = none ∧ ∃ m', m.declare "&x" (.integer 5) = .ok (10, m') ∧
      m'.resolve .native (.text "%&x%") = .error (.undeclared "x")) ∧
    m.lookup? "a%b" = none ∧ ∃ m', m.declare "a%b" (.integer 5) = .ok (10, m') ∧
      m'.resolve .native (.text "%a%b%") = .error (.undeclared "a") ∧
      m'.resolve .native (.text "%&a%b%") = .error (.undeclared "a") := by
  intro m
  refine ⟨⟨by decide +kernel, _, rfl, ?_⟩, by decide +kernel, _, rfl, ?_, ?_⟩ <;> decide +kernel

end SimpleBatch.Memory
