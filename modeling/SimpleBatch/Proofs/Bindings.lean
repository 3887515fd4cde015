import SimpleBatch.Proofs.Addressing
import SimpleBatch.Proofs.Control
import SimpleBatch.Proofs.Variables
import SimpleBatch.Proofs.Zones

/-!
# Names and their slots

A script declares names as it runs, perhaps the same one many times over. The
table of the names only grows, at its end, so a name that has a slot keeps it:

* `Memory.lookup?_of_extends`: a longer table finds the slots that a shorter one
  finds, whatever was added to it, since the reserved names and then the oldest
  declarations come first in a search;
* `Memory.slotName?_of_lookup?`: the slot that is found for a name is shown under
  this name. A search goes by the name, a dump by the place in the table; they
  agree as there are never more names than slots for them;
* `Program.names_resume`: the names of a run are those of its declarations, in
  order (`Program.declarations`);
* `Program.bindings_resume`: what follows for whole runs.
-/

namespace SimpleBatch

variable {σ : Type}

namespace Memory

/-! ## Declarations -/

/-- The name and the value that the arguments of a declaration give: a name for
    the value zero, or a value and a name. -/
def declaration (m : Memory) : List Value → Except Fault (String × Value)
  | [] => .error (.argumentCount 0)
  | [name] => .ok (name.render, .integer 0)
  | value :: name :: _ => (m.resolve .native value).map (name.render, ·)

theorem declareArgs_eq (m : Memory) (args : List Value) :
    m.declareArgs args = m.declaration args >>= fun d => (m.declare d.1 d.2).map (·.2) := by
  match args with
  | [] => rfl
  | [name] => rfl
  | value :: name :: rest =>
    simp only [declareArgs, declaration]
    cases m.resolve .native value <;> rfl

/-- Without a slot left, any declaration fails, even that of a text that cannot
    be a name. -/
theorem declare_of_le {m : Memory} (h : 90 ≤ m.names.length) (name : String) (value : Value) :
    m.declare name value = .error .memoryExhausted := by
  have hr : registerSlot = 100 := rfl
  have hf : firstVariable = 10 := rfl
  simp only [declare]
  rw [dif_neg (by omega)]

theorem declare_of_not_isName {m : Memory} (h : m.names.length < 90) {name : String}
    (hn : ¬isName name) (value : Value) : m.declare name value = .error (.invalidName name) := by
  have hr : registerSlot = 100 := rfl
  have hf : firstVariable = 10 := rfl
  simp only [declare]
  rw [dif_pos (by omega), if_neg hn]

/-! ## Tables that grow -/

variable {m m' : Memory} {name : String} {slot : Nat}

theorem Written.extends_names (h : m.Written m') : m.names <+: m'.names := by
  cases h with
  | keep => exact List.prefix_refl _
  | put => exact List.prefix_refl _
  | declare => exact List.prefix_append _ _

/-- A name keeps its slot when names are added to the table. -/
theorem lookup?_of_extends (h : m.names <+: m'.names) (hs : m.lookup? name = some slot) :
    m'.lookup? name = some slot := by
  obtain ⟨added, hadded⟩ := h
  simp only [lookup?, Option.or_eq_some_iff, Option.map_eq_some_iff] at hs ⊢
  refine hs.imp_right ?_
  rintro ⟨hr, i, hi, hslot⟩
  refine ⟨hr, i, ?_, hslot⟩
  -- The first place of the name in the shorter table is its first place in the
  -- longer one.
  rw [← hadded, List.idxOf?, List.findIdx?_append, ← List.idxOf?, hi]
  rfl

/-- The slots of the reserved names are shown under these names. -/
theorem slotName?_of_reserved (hs : reserved.lookup name = some slot) :
    m.slotName? slot = some name := by
  obtain ⟨l₁, l₂, hl, -⟩ := List.lookup_eq_some_iff.1 hs
  have hmem : (name, slot) ∈ reserved := hl ▸ List.mem_append_right l₁ List.mem_cons_self
  simp only [reserved, List.mem_cons, Prod.mk.injEq, List.not_mem_nil, or_false] at hmem
  rcases hmem with h | h | h | h | h | h | h <;> obtain ⟨rfl, rfl⟩ := h <;> rfl

/-- The slot that is found for a name is shown under this name. -/
theorem slotName?_of_lookup? (hm : m.names.length ≤ 90) (hs : m.lookup? name = some slot) :
    m.slotName? slot = some name := by
  simp only [lookup?, Option.or_eq_some_iff, Option.map_eq_some_iff] at hs
  rcases hs with hs | ⟨-, i, hi, rfl⟩
  · exact slotName?_of_reserved hs
  · have hr : registerSlot = 100 := rfl
    have hf : firstVariable = 10 := rfl
    obtain ⟨hlt, hname, -⟩ := List.findIdx?_eq_some_iff_getElem.1 hi
    rw [slotName?, if_neg (by omega), if_pos (by omega), Nat.add_sub_cancel_left,
      List.getElem?_eq_getElem hlt, beq_iff_eq.1 hname]
    rfl

/-- A new variable is shown under its name. -/
theorem slotName?_of_declare {value : Value} (h : m.declare name value = .ok (slot, m')) :
    m'.slotName? slot = some name := by
  obtain ⟨hl, -, rfl, rfl⟩ := m.declare_eq_ok.1 h
  have hr : registerSlot = 100 := rfl
  have hf : firstVariable = 10 := rfl
  rw [slotName?, if_neg (by omega), if_pos (by omega), hf, Nat.add_sub_cancel_left,
    List.getElem?_concat_length]
  rfl

/-- Only a declaration adds a name. -/
theorem names_of_assign {value : Value} {destination : Option Value}
    (h : m.assign value destination = .ok m') : m'.names = m.names := by
  rw [assign_eq] at h
  obtain ⟨slot, -, h⟩ := Fault.bind_eq_ok.1 h
  cases h
  rfl

end Memory

/-! ## The names of a run -/

/-- Only one command declares. -/
theorem Command.eq_var_of_action {c : Command} (h : c.action = .declare) : c = .var := by
  cases c <;> cases h
  rfl

/-- Every other command keeps the names as they are. -/
theorem Command.names_of_effect {p : Program} {i : Nat} {args : List Value} {m : Memory}
    {g : Generator} {c : Command} {e : Effect} {flow : Flow} (hc : c ≠ .var)
    (h : c.action.effect p i args m g = .ok (e, flow)) : (e.memory m).names = m.names := by
  have ha : c.action ≠ .declare := fun ha => hc (eq_var_of_action ha)
  have hy := Action.yields_of_effect h
  generalize c.action = a at ha hy
  cases hy with
  | operate hm =>
    obtain ⟨value, -, hm⟩ := Fault.bind_eq_ok.1 hm
    exact Memory.names_of_assign hm
  | declare => exact absurd rfl ha
  | draw _ hm => exact Memory.names_of_assign hm
  | _ => rfl

namespace Program

/-- The declaration that a run makes in a visit of a line, with the name and the
    value; nothing for a line that does not declare, or that fails. -/
def declaredAt (r : Run σ) (entry : Entry) : List (String × Value) :=
  match entry.line?, entry.command? with
  | some line, some .var =>
    match r.machine.memory.declaration line.args with
    | .ok d => if (r.machine.memory.declare d.1 d.2).isOk then [d] else []
    | .error _ => []
  | _, _ => []

/-- The declarations that a run makes, in order, in at most `fuel` visits. -/
def declarations (host : Host σ) (p : Program) (fuel : Nat) (r : Run σ) : List (String × Value) :=
  p.collect host declaredAt fuel r

variable {host : Host σ} {p : Program}

theorem declaredAt_of_ok {r : Run σ} {entry : Entry} {line : Line} {name : String} {value : Value}
    {slot : Nat} {m : Memory} (hl : entry.line? = some line) (hc : entry.command? = some .var)
    (hargs : r.machine.memory.declaration line.args = .ok (name, value))
    (hd : r.machine.memory.declare name value = .ok (slot, m)) :
    declaredAt r entry = [(name, value)] := by
  simp only [declaredAt, hl, hc, hargs, hd]
  rfl

theorem declaredAt_of_error {r : Run σ} {entry : Entry} {line : Line} {fault : Fault}
    (hl : entry.line? = some line) (hc : entry.command? = some .var)
    (h : r.machine.memory.declareArgs line.args = .error fault) : declaredAt r entry = [] := by
  rw [Memory.declareArgs_eq] at h
  simp only [declaredAt, hl, hc]
  cases hargs : r.machine.memory.declaration line.args with
  | error fault => rfl
  | ok d =>
    cases hd : r.machine.memory.declare d.1 d.2 with
    | error fault =>
      simp only [hd]
      rfl
    | ok result => simp [hargs, hd] at h

theorem declaredAt_of_ne {r : Run σ} {entry : Entry} (hc : entry.command? ≠ some .var) :
    declaredAt r entry = [] := by
  unfold declaredAt
  split
  · next hv => exact absurd hv hc
  · rfl

/-- A visit adds the name that it declares. -/
theorem Visit.names {r : Run σ} {entry : Entry} {x : Progress σ} (h : p.Visit host r entry x) :
    x.run.machine.memory.names =
      r.machine.memory.names ++ (declaredAt r entry).map Prod.fst := by
  by_cases hv : entry.command? = some .var
  · cases h with
    | blank hl => simp [declaredAt, hl, Progress.run]
    | unknown hl hc => simp [hc] at hv
    | command hl hc he =>
      cases hc.symm.trans hv
      obtain ⟨m', hm', he⟩ := Fault.map_eq_ok.1 he
      cases he
      rw [Memory.declareArgs_eq] at hm'
      obtain ⟨⟨name, value⟩, hargs, hm'⟩ := Fault.bind_eq_ok.1 hm'
      obtain ⟨⟨slot, m''⟩, hd, hm'⟩ := Fault.map_eq_ok.1 hm'
      cases hm'
      obtain ⟨-, -, -, hm⟩ := r.machine.memory.declare_eq_ok.1 hd
      rw [Run.run_follow_machine, Machine.memory_echoed, Effect.memory_apply,
        declaredAt_of_ok hl hv hargs hd]
      exact congrArg Memory.names hm
    | @fault line c fault hl hc he =>
      cases hc.symm.trans hv
      have hd : r.machine.memory.declareArgs line.args = .error fault := by
        cases hm : r.machine.memory.declareArgs line.args with
        | ok m => simp [Command.action, Action.effect, hm] at he
        | error fault' => simpa [Command.action, Action.effect, hm] using he
      rw [declaredAt_of_error hl hv hd]
      exact (List.append_nil _).symm
  · rw [declaredAt_of_ne hv, List.map_nil, List.append_nil]
    cases h with
    | blank => rfl
    | unknown => rfl
    | command hl hc he =>
      rw [Run.run_follow_machine, Machine.memory_echoed, Effect.memory_apply]
      exact Command.names_of_effect (fun h => hv (h ▸ hc)) he
    | fault => rfl

/-- The names of a run are those of its declarations. -/
theorem names_resume (fuel : Nat) (r : Run σ) :
    (p.resume host fuel r).run.machine.memory.names =
      r.machine.memory.names ++ (p.declarations host fuel r).map Prod.fst := by
  induction fuel, r using run_induction host p with
  | zero r => exact (List.append_nil _).symm
  | past fuel r he =>
    rw [resume_of_none he, declarations, collect_of_none _ he]
    exact (List.append_nil _).symm
  | running fuel r entry r' he hv ih =>
    have hn : r'.machine.memory.names = _ := hv.names
    rw [resume_of_running he hv, ih, hn, declarations, declarations, collect_of_running _ he hv,
      List.map_append, List.append_assoc]
  | ended fuel r entry x he hv hx =>
    rw [resume_of_ended he hv hx, declarations, collect_of_ended _ he hv hx, hv.names]

/-- The names that a run has at some time begin those that it has later. -/
theorem extends_names_resume {n fuel : Nat} (h : n ≤ fuel) (r : Run σ) :
    (p.resume host n r).run.machine.memory.names <+:
      (p.resume host fuel r).run.machine.memory.names := by
  cases hx : p.resume host n r with
  | running r₁ =>
    obtain ⟨d, rfl⟩ := Nat.exists_eq_add_of_le h
    rw [resume_add_of_running d hx]
    exact resume_invariant
      (P := fun r => r₁.machine.memory.names <+: r.machine.memory.names)
      (fun _ hv hr => hr.trans hv.written.extends_names) d (List.prefix_refl _)
  | finished r₁ | failed e r₁ =>
    have he : (p.resume host n r).Ended := by
      rw [hx]
      exact nofun
    simp only [resume_eq_of_le he h, hx, List.prefix_rfl]

variable {r : Run σ} {line : Line} {name : String} {value : Value}

/-- A run at a declaration that can be made makes it, and goes on. -/
theorem advance_of_declare {slot : Nat} {m : Memory} (hl : p.line? r.index = some line)
    (hc : p.command? r.index = some .var)
    (hargs : r.machine.memory.declaration line.args = .ok (name, value))
    (hd : r.machine.memory.declare name value = .ok (slot, m)) :
    p.advance host r = .running
      { machine := { r.machine with memory := m }.echoed host line
        index := r.index + 1
        visited := r.visited + 1 } := by
  have he : Command.var.action.effect p r.index line.args r.machine.memory r.machine.generator =
      .ok (.write m, .next) := by
    simp [Command.action, Action.effect, Memory.declareArgs_eq, hargs, hd]
  exact advance_of_effect hl hc he

/-- And ends in the fault of one that cannot. -/
theorem error?_advance_of_declareArgs {fault : Fault} (hl : p.line? r.index = some line)
    (hc : p.command? r.index = some .var)
    (h : r.machine.memory.declareArgs line.args = .error fault) :
    (p.advance host r).error? = some ⟨r.index + 1, line.keyword.map Char.toUpper, fault⟩ := by
  have he : Command.var.action.effect p r.index line.args r.machine.memory r.machine.generator =
      .error fault := by
    simp [Command.action, Action.effect, h]
  exact error?_advance_of_effect hl hc he

/-- The declarations of a run up to a line, and that of the line. -/
theorem declarations_succ {n : Nat} {r₀ : Run σ} {entry : Entry}
    (hr : p.resume host n r₀ = .running r) (he : p.entries[r.index]? = some entry) :
    p.declarations host (n + 1) r₀ = p.declarations host n r₀ ++ declaredAt r entry := by
  have h₁ : p.collect host declaredAt 1 r = declaredAt r entry := by
    cases hv : p.visit host r entry with
    | running r' =>
      rw [collect_of_running _ he (visit_iff.1 hv)]
      exact List.append_nil _
    | finished r' | failed e r' => exact collect_of_ended _ he (visit_iff.1 hv) nofun
  rw [declarations, collect_add_of_running _ 1 hr, h₁]
  rfl

/-- Names and their slots in a run.

    The names at any time begin those at any later time; they are the names of
    the declarations that the run has made so far, in order.

    At a line that declares, let `k` count the declarations before it and its
    own. If the arguments do not give a name and a value, the run ends in the
    fault of the arguments. If they do, it ends for lack of memory if `k` is
    above 90, whatever the name; then because of the name, if that cannot be
    one; and otherwise goes on, and slot `9 + k` is shown under the name and
    holds the value, whatever it held before, while all other slots are as they
    were.

    A name that has a slot at some time has the same slot at any later time, and
    a reserved name always has its own. The slot is always shown under the name. -/
theorem bindings_resume (host : Host σ) (p : Program) (setup : Setup) (invocation : Invocation)
    (s : σ) :
    let start := Run.start setup invocation s
    let memory := fun n => (p.resume host n start).run.machine.memory
    (∀ n fuel, n ≤ fuel → (memory n).names <+: (memory fuel).names) ∧
    (∀ n, (memory n).names = (p.declarations host n start).map Prod.fst) ∧
    (∀ n r line, p.resume host n start = .running r → p.line? r.index = some line →
      p.command? r.index = some .var →
      let k := (p.declarations host n start).length + 1
      let fails := fun fault => (p.resume host (n + 1) start).error? =
        some ⟨r.index + 1, line.keyword.map Char.toUpper, fault⟩
      (∀ fault, r.machine.memory.declaration line.args = .error fault → fails fault) ∧
      ∀ name value, r.machine.memory.declaration line.args = .ok (name, value) →
        (90 < k → fails .memoryExhausted) ∧
        (k ≤ 90 → ¬Memory.isName name → fails (.invalidName name)) ∧
        (k ≤ 90 → Memory.isName name →
          (∃ r', p.resume host (n + 1) start = .running r') ∧
          p.declarations host (n + 1) start = p.declarations host n start ++ [(name, value)] ∧
          (memory (n + 1)).slotName? (9 + k) = some name ∧
          ∀ i, (memory (n + 1)).get? i =
            if i = 9 + k then some value else r.machine.memory.get? i)) ∧
    (∀ n fuel name slot, n ≤ fuel → (memory n).lookup? name = some slot →
      (memory fuel).lookup? name = some slot) ∧
    (∀ n name slot, Memory.reserved.lookup name = some slot →
      (memory n).lookup? name = some slot) ∧
    ∀ n name slot, (memory n).lookup? name = some slot →
      (memory n).slotName? slot = some name := by
  intro start memory
  have hnames : ∀ n, (memory n).names = (p.declarations host n start).map Prod.fst := fun n =>
    (names_resume n start).trans (List.nil_append _)
  have hextends : ∀ n fuel, n ≤ fuel → (memory n).names <+: (memory fuel).names :=
    fun n fuel h => extends_names_resume h start
  refine ⟨hextends, hnames, ?_, fun n fuel name slot h hs => ?_, fun n name slot hs => ?_,
    fun n name slot hs => ?_⟩
  · intro n r line hr hl hc k fails
    obtain ⟨entry, he, hl'⟩ := Option.bind_eq_some_iff.1 hl
    have hc' : entry.command? = some .var := (command?_of_some he).symm.trans hc
    have hk : r.machine.memory.names.length + 1 = k := by
      have hn := congrArg List.length (hnames n)
      simp only [memory, hr, List.length_map] at hn
      exact congrArg (· + 1) hn
    have hsucc : p.resume host (n + 1) start = p.advance host r := resume_succ_of_advance hr rfl
    have hfails : ∀ fault, r.machine.memory.declareArgs line.args = .error fault → fails fault :=
      fun fault hd => (congrArg Progress.error? hsucc).trans
        (error?_advance_of_declareArgs hl hc hd)
    refine ⟨fun fault hargs => hfails fault ?_, fun name value hargs => ⟨?_, ?_, ?_⟩⟩
    · rw [Memory.declareArgs_eq, hargs, Fault.error_bind]
    · intro hlt
      refine hfails _ ?_
      rw [Memory.declareArgs_eq, hargs, Fault.ok_bind, Memory.declare_of_le (by omega),
        Fault.error_map]
    · intro hle hn
      refine hfails _ ?_
      rw [Memory.declareArgs_eq, hargs, Fault.ok_bind,
        Memory.declare_of_not_isName (by omega) hn, Fault.error_map]
    · intro hle hn
      have hd : r.machine.memory.declare name value = .ok (_, _) :=
        r.machine.memory.declare_eq_ok.2 ⟨by omega, hn, rfl, rfl⟩
      have hslot : 10 + r.machine.memory.names.length = 9 + k := by omega
      rw [advance_of_declare hl hc hargs hd] at hsucc
      refine ⟨⟨_, hsucc⟩, ?_, ?_, fun i => ?_⟩
      · rw [declarations_succ hr he, declaredAt_of_ok hl' hc' hargs hd]
      · simp only [memory, hsucc, Progress.run, Machine.memory_echoed, ← hslot]
        exact Memory.slotName?_of_declare hd
      · simp only [memory, hsucc, Progress.run, Machine.memory_echoed, ← hslot]
        exact Memory.get?_of_declare hd i
  · exact Memory.lookup?_of_extends (hextends n fuel h) hs
  · rw [Memory.lookup?, hs]
    rfl
  · exact Memory.slotName?_of_lookup?
      (zoned_resume host p setup invocation s n).names_length hs

/-- A loop that declares one name over and over: the second slot was written to
    before it got its name, the name stays with the first slot, and the
    ninety-first declaration fails. -/
theorem bindings_resume_loop :
    let p := ofLines ["SET 7, 11", "POS top", "VAR %0, x", "GOTO top"]
    let start := Run.start {} ⟨"T", []⟩ (#[] : Array Call)
    let memory := fun n => (p.resume Host.trace n start).run.machine.memory
    (memory 4).get? 11 = some (.integer 7) ∧ (memory 5).get? 11 = some (.text "T") ∧
      (memory 4).lookup? "x" = some 10 ∧ (memory 5).lookup? "x" = some 10 ∧
      (p.resume Host.trace 183 start).error? = some ⟨3, "VAR", .memoryExhausted⟩ := by
  intro p start memory
  obtain ⟨-, -, hvar, hlookup, -⟩ := bindings_resume Host.trace p {} ⟨"T", []⟩ #[]
  have hrunning : ∀ x : Progress (Array Call), x.next? = some 2 →
      x = .running x.run ∧ x.run.index = 2 := by
    intro x hx
    cases x with
    | running r => exact ⟨rfl, Option.some.inj hx⟩
    | finished r | failed e r => cases hx
  have hl : p.line? 2 = some ⟨"VAR", ["%0", "x"]⟩ := by decide +kernel
  have hc : p.command? 2 = some .var := by decide +kernel
  -- Before its second declaration, the run is at the line that declares.
  obtain ⟨hr, hi⟩ := hrunning (p.resume Host.trace 4 start) (by decide +kernel)
  have hargs : (memory 4).declaration (Line.mk "VAR" ["%0", "x"]).args = .ok ("x", .text "T") :=
    Fault.eq_ok_of_toOption (by decide +kernel)
  have hsecond := ((hvar 4 _ _ hr (hi ▸ hl) (hi ▸ hc)).2 _ _ hargs).2.2
    (by decide +kernel) (by decide +kernel)
  have hk : (p.declarations Host.trace 4 start).length + 1 = 2 := by decide +kernel
  -- And so it is before its ninety-first.
  obtain ⟨hr', hi'⟩ := hrunning (p.resume Host.trace 182 start) (by decide +kernel)
  have hargs' : (memory 182).declaration (Line.mk "VAR" ["%0", "x"]).args = .ok ("x", .text "T") :=
    Fault.eq_ok_of_toOption (by decide +kernel)
  have hlast := ((hvar 182 _ _ hr' (hi' ▸ hl) (hi' ▸ hc)).2 _ _ hargs').1 (by decide +kernel)
  have hlookup₄ : (memory 4).lookup? "x" = some 10 := by decide +kernel
  refine ⟨by decide +kernel, ?_, hlookup₄, hlookup 4 5 "x" 10 (by decide) hlookup₄, ?_⟩
  · rw [hsecond.2.2.2 11, if_pos (by rw [hk])]
  · rw [hlast, hi']
    decide +kernel

end Program

end SimpleBatch
