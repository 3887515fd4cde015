import SimpleBatch.Proofs.Control

/-!
# Labels

A jump looks for its label from the top of the program, wherever it stands. A
label is a template of its own: its text is found out anew in every search, from
the memory of the moment (`Memory.label`), and may turn out to have none.

A label with another text than the target is passed over, and so is every line
that is no label (`Program.Passed`). The first line that is not passed over decides the
search (`Program.Search`): it is the one that is found, or the one in which the search
fails. The lines after it are never looked at.

A jump searches by these rules (`Program.search_iff`), so the place where it goes
depends on the memory and on the target, and not on where the jump stands
(`Program.label_search`).
-/

namespace SimpleBatch

variable {σ : Type}

/-- The text of a label that is written as a token. -/
def Memory.label (m : Memory) (token : String) : Except Fault String :=
  (m.resolve .composite (.ofToken token)).map Value.render

theorem Memory.findLabel_cons (m : Memory) (target : String) (i : Nat) (token : String)
    (l : List (Nat × String)) :
    m.findLabel target ((i, token) :: l) = m.label token >>= fun text =>
      if text = target then .ok (some i) else m.findLabel target l := by
  rw [findLabel, label]
  cases m.resolve .composite (.ofToken token) <;> rfl

namespace Program

/-! ## Searching -/

section

variable (p : Program)

/-- The line at an index is a label, written as a token. -/
structure LabelAt (i : Nat) (token : String) : Prop where
  command : p.command? i = some .pos
  token : ∃ line, p.line? i = some line ∧ line.tokens.head? = some token

variable (m : Memory) (target : String)

/-- The line at an index is passed over: it is no label, or one with another text
    than the target. -/
def Passed (i : Nat) : Prop :=
  ∀ token, p.LabelAt i token → ∃ text, m.label token = .ok text ∧ text ≠ target

/-- What a search for a target comes to. -/
inductive Search (x : Except Fault (Option Nat)) : Prop
  /-- There is a first label that is not passed over. -/
  | decided {i : Nat} {token : String} : p.LabelAt i token → ¬p.Passed m target i →
    (∀ j < i, p.Passed m target j) → (m.label token).map (fun _ => some i) = x → Search x
  /-- All lines are passed over. -/
  | missing : (∀ j, p.Passed m target j) → .ok none = x → Search x

end

variable {p q : Program} {m : Memory} {target token : String} {i : Nat}

theorem LabelAt.unique {token' : String} (h : p.LabelAt i token) (h' : p.LabelAt i token') :
    token = token' := by
  obtain ⟨line, hl, ht⟩ := h.token
  obtain ⟨line', hl', ht'⟩ := h'.token
  cases hl.symm.trans hl'
  exact Option.some.inj (ht.symm.trans ht')

theorem LabelAt.passed_iff (h : p.LabelAt i token) :
    p.Passed m target i ↔ ∃ text, m.label token = .ok text ∧ text ≠ target := by
  refine ⟨fun hp => hp token h, fun htext token' h' => ?_⟩
  cases h.unique h'
  exact htext

theorem LabelAt.not_passed_iff (h : p.LabelAt i token) :
    ¬p.Passed m target i ↔ ∀ text, m.label token = .ok text → text = target := by
  simp only [h.passed_iff, not_exists, not_and, Decidable.not_not]

/-- A search is decided at one line only. -/
theorem Search.unique {x y : Except Fault (Option Nat)} (hx : p.Search m target x)
    (hy : p.Search m target y) : x = y := by
  rcases hx with @⟨i, token, hl, hp, hb, rfl⟩ | ⟨hall, rfl⟩ <;>
    rcases hy with @⟨j, token', hl', hp', hb', rfl⟩ | ⟨hall', rfl⟩
  · -- The search that is decided later would pass over where the other one is.
    rcases Nat.lt_trichotomy i j with h | rfl | h
    · exact absurd (hb' i h) hp
    · rw [hl.unique hl']
    · exact absurd (hb j h) hp'
  · exact absurd (hall' i) hp
  · exact absurd (hall j) hp'
  · rfl

variable (p) in
/-- The token of the label at an index, if there is a label. -/
def label? (i : Nat) : Option String :=
  if p.command? i = some .pos then (p.line? i).bind fun line => line.tokens.head? else none

theorem label?_eq_some : p.label? i = some token ↔ p.LabelAt i token := by
  rw [label?, Option.ite_none_right_eq_some, Option.bind_eq_some_iff]
  exact ⟨fun h => ⟨h.1, h.2⟩, fun h => ⟨h.command, h.token⟩⟩

theorem labels_eq_filterMap (p : Program) :
    p.labels = (List.range p.size).filterMap fun i => (p.label? i).map (i, ·) := by
  rw [labels]
  congr 1
  funext i
  rw [label?]
  split
  · cases p.line? i <;> rfl
  · rfl

/-- The label that decides a search is found, or the search fails in it. -/
theorem LabelAt.findLabel_cons (h : p.LabelAt i token) (hp : ¬p.Passed m target i)
    (l : List (Nat × String)) :
    m.findLabel target ((i, token) :: l) = (m.label token).map fun _ => some i := by
  rw [Memory.findLabel_cons]
  cases ht : m.label token with
  | error fault => rfl
  | ok text =>
    rw [Fault.ok_bind, if_pos (h.not_passed_iff.1 hp text ht)]
    rfl

/-- A search that has passed over the lines before `k`, with `n` lines to go. -/
theorem search_from (n k : Nat) (hk : k + n = p.size) (hb : ∀ j < k, p.Passed m target j) :
    p.Search m target
      (m.findLabel target ((List.range' k n).filterMap fun i => (p.label? i).map (i, ·))) := by
  induction n generalizing k with
  | zero =>
    refine .missing (fun j => ?_) rfl
    by_cases hj : j < k
    · exact hb j hj
    · -- Past the last line there are no labels.
      intro token ht
      exact absurd (lt_size_of_command? ht.command) (by omega)
  | succ n ih =>
    have hnext : p.Passed m target k → p.Search m target (m.findLabel target
        ((List.range' (k + 1) n).filterMap fun i => (p.label? i).map (i, ·))) := fun hp =>
      ih (k + 1) (by omega) (Nat.forall_lt_succ_right.2 ⟨hb, hp⟩)
    rw [List.range'_succ]
    cases hl : p.label? k with
    | none =>
      rw [List.filterMap_cons_none (by rw [hl]; rfl)]
      refine hnext fun token ht => ?_
      cases hl.symm.trans (label?_eq_some.2 ht)
    | some token =>
      have hlabel : p.LabelAt k token := label?_eq_some.1 hl
      rw [List.filterMap_cons_some (by rw [hl]; rfl)]
      by_cases hp : p.Passed m target k
      · obtain ⟨text, ht, hne⟩ := hp token hlabel
        rw [Memory.findLabel_cons, ht, Fault.ok_bind, if_neg hne]
        exact hnext hp
      · exact .decided hlabel hp hb (hlabel.findLabel_cons hp _).symm

/-- The rules tell what a search comes to. -/
theorem search_iff {x : Except Fault (Option Nat)} :
    m.findLabel target p.labels = x ↔ p.Search m target x := by
  have hsearch : p.Search m target (m.findLabel target p.labels) := by
    rw [labels_eq_filterMap, List.range_eq_range']
    exact search_from p.size 0 (Nat.zero_add _) nofun
  exact ⟨fun h => h ▸ hsearch, fun h => hsearch.unique h⟩

theorem findLabel_eq_some : m.findLabel target p.labels = .ok (some i) ↔
    (∃ token, p.LabelAt i token ∧ m.label token = .ok target) ∧
      ∀ j < i, p.Passed m target j := by
  rw [search_iff]
  constructor
  · rintro (@⟨_, token, hl, hp, hb, hx⟩ | ⟨-, hx⟩)
    · obtain ⟨text, ht, hi⟩ := Fault.map_eq_ok.1 hx
      cases hi
      obtain rfl : text = target := hl.not_passed_iff.1 hp text ht
      exact ⟨⟨token, hl, ht⟩, hb⟩
    · cases hx
  · rintro ⟨⟨token, hl, ht⟩, hb⟩
    refine .decided hl (hl.not_passed_iff.2 fun text htext => ?_) hb (by rw [ht]; rfl)
    cases ht.symm.trans htext
    rfl

theorem findLabel_eq_none :
    m.findLabel target p.labels = .ok none ↔ ∀ j, p.Passed m target j := by
  rw [search_iff]
  constructor
  · rintro (⟨-, -, -, hx⟩ | ⟨hall, -⟩)
    · obtain ⟨_, -, hi⟩ := Fault.map_eq_ok.1 hx
      cases hi
    · exact hall
  · exact fun hall => .missing hall rfl

theorem findLabel_eq_error {fault : Fault} : m.findLabel target p.labels = .error fault ↔
    ∃ i token, p.LabelAt i token ∧ m.label token = .error fault ∧
      ∀ j < i, p.Passed m target j := by
  rw [search_iff]
  constructor
  · rintro (@⟨i, token, hl, -, hb, hx⟩ | ⟨-, hx⟩)
    · exact ⟨i, token, hl, Fault.map_eq_error.1 hx, hb⟩
    · cases hx
  · rintro ⟨i, token, hl, ht, hb⟩
    refine .decided hl (hl.not_passed_iff.2 fun text htext => ?_) hb (by rw [ht]; rfl)
    cases ht.symm.trans htext

theorem labelAt_congr (h : q.entries[i]? = p.entries[i]?) :
    q.LabelAt i token ↔ p.LabelAt i token := by
  have hc : q.command? i = p.command? i := by rw [command?, command?, h]
  have hl : q.line? i = p.line? i := by rw [line?, line?, h]
  exact ⟨fun hq => ⟨hc ▸ hq.command, hl ▸ hq.token⟩, fun hp => ⟨hc ▸ hp.command, hl ▸ hp.token⟩⟩

theorem passed_congr (h : q.entries[i]? = p.entries[i]?) :
    q.Passed m target i ↔ p.Passed m target i :=
  forall_congr' fun _ => imp_congr_left (labelAt_congr h)

/-- Nothing after a line that is not passed over has a part in a search. -/
theorem findLabel_congr (hp : ¬p.Passed m target i)
    (hq : ∀ j ≤ i, q.entries[j]? = p.entries[j]?) :
    m.findLabel target q.labels = m.findLabel target p.labels := by
  rcases search_iff.1 (rfl : m.findLabel target p.labels = _) with
    @⟨k, token, hl, hk, hb, hx⟩ | ⟨hall, -⟩
  · -- The search is decided at `i` at the latest, where the programs are still the same.
    have hki : k ≤ i := Nat.le_of_not_lt fun h => hp (hb i h)
    have hk' : ¬q.Passed m target k := mt (passed_congr (hq k hki)).1 hk
    refine search_iff.2 (.decided ((labelAt_congr (hq k hki)).2 hl) hk' (fun j hj => ?_) hx)
    exact (passed_congr (hq j (Nat.le_trans (Nat.le_of_lt hj) hki))).2 (hb j hj)
  · exact absurd (hall i) hp

/-! ## Jumping -/

variable (p m) in
/-- The line at an index is a jump to a target. -/
structure Seeks (i : Nat) (target : String) : Prop where
  command : p.command? i = some .goto
  operand : ∃ line value, p.line? i = some line ∧ m.operand .composite line.args = .ok value ∧
    value.render = target

/-- A jump goes past the label that it finds, and to the next line if the label is
    missing. -/
theorem Seeks.next?_advance {r : Run σ} (h : p.Seeks r.machine.memory r.index target)
    {label : Option Nat} (hl : r.machine.memory.findLabel target p.labels = .ok label)
    (host : Host σ) : (p.advance host r).next? = some (label.getD r.index + 1) := by
  obtain ⟨line, value, hline, hvalue, rfl⟩ := h.operand
  have he : Command.goto.action.effect p r.index line.args r.machine.memory
      r.machine.generator = .ok (.none, label.elim .next .after) := by
    simp [Command.action, Action.effect, hvalue, hl]
  rw [advance_of_effect hline h.command he, Run.next?_follow]
  cases label <;> rfl

/-- A jump fails with its search. -/
theorem Seeks.fault_advance {r : Run σ} (h : p.Seeks r.machine.memory r.index target)
    {fault : Fault} (hl : r.machine.memory.findLabel target p.labels = .error fault)
    (host : Host σ) : (p.advance host r).error?.map ScriptError.fault = some fault := by
  obtain ⟨line, value, hline, hvalue, rfl⟩ := h.operand
  have he : Command.goto.action.effect p r.index line.args r.machine.memory
      r.machine.generator = .error fault := by
    simp [Command.action, Action.effect, hvalue, hl]
  rw [error?_advance_of_effect hline h.command he]
  rfl

/-- The search for a label, in any program and with any memory.

    The label that is found is the first one with the text of the target, provided
    that every label before it has a text. None is found if all labels have texts,
    and other ones. And the search fails in a label that has no text if those
    before it have one, and another one than the target. A label after the one that
    is found, be it written alike or without a text, has no part in this: the
    program could as well be another one from there on.

    So a jump goes past the same label, or fails with the same fault, from
    wherever it is made with this memory and target. -/
theorem label_search (p : Program) (m : Memory) (target : String) :
    (∀ i, m.findLabel target p.labels = .ok (some i) ↔
      (∃ token, p.LabelAt i token ∧ m.label token = .ok target) ∧
        ∀ j < i, p.Passed m target j) ∧
    (m.findLabel target p.labels = .ok none ↔ ∀ j, p.Passed m target j) ∧
    (∀ fault, m.findLabel target p.labels = .error fault ↔
      ∃ i token, p.LabelAt i token ∧ m.label token = .error fault ∧
        ∀ j < i, p.Passed m target j) ∧
    (∀ (i : Nat) (q : Program), ¬p.Passed m target i →
      (∀ j ≤ i, q.entries[j]? = p.entries[j]?) →
      m.findLabel target q.labels = m.findLabel target p.labels) ∧
    ∀ (σ : Type) (host : Host σ) (r : Run σ), r.machine.memory = m →
      p.Seeks m r.index target →
      (∀ label, m.findLabel target p.labels = .ok label →
        (p.advance host r).next? = some (label.getD r.index + 1)) ∧
      ∀ fault, m.findLabel target p.labels = .error fault →
        (p.advance host r).error?.map ScriptError.fault = some fault := by
  refine ⟨fun i => findLabel_eq_some, findLabel_eq_none, fun fault => findLabel_eq_error,
    fun i q => findLabel_congr, fun σ host r hr hs => ?_⟩
  subst hr
  exact ⟨fun label hl => hs.next?_advance hl host, fun fault hl => hs.fault_advance hl host⟩

/-- Of two labels alike the first is found, and one after them that has no text does
    no harm. -/
theorem label_search_duplicate :
    let p := ofLines ["POS %1", "POS a", "POS a", "POS %NOPE%", "GOTO a"]
    let r : Run (Array Call) := { Run.start {} ⟨"T", []⟩ #[] with index := 4 }
    let m := r.machine.memory
    (p.LabelAt 1 "a" ∧ m.label "a" = .ok "a" ∧ p.Passed m "a" 0) ∧
      (p.LabelAt 3 "%NOPE%" ∧ (m.label "%NOPE%").toOption = none) ∧
      p.Seeks m r.index "a" ∧ m.findLabel "a" p.labels = .ok (some 1) ∧
      (p.advance Host.trace r).next? = some 2 := by
  intro p r m
  have h₀ : p.LabelAt 0 "%1" :=
    ⟨by decide +kernel, ⟨"POS", ["%1"]⟩, by decide +kernel, rfl⟩
  have h₁ : p.LabelAt 1 "a" := ⟨by decide +kernel, ⟨"POS", ["a"]⟩, by decide +kernel, rfl⟩
  have h₃ : p.LabelAt 3 "%NOPE%" :=
    ⟨by decide +kernel, ⟨"POS", ["%NOPE%"]⟩, by decide +kernel, rfl⟩
  have ht₀ : m.label "%1" = .ok "0" := Fault.eq_ok_of_toOption (by decide +kernel)
  have ht₁ : m.label "a" = .ok "a" := Fault.eq_ok_of_toOption (by decide +kernel)
  have ht₃ : (m.label "%NOPE%").toOption = none := by decide +kernel
  have hp : p.Passed m "a" 0 := h₀.passed_iff.2 ⟨"0", ht₀, by decide⟩
  have hseeks : p.Seeks m r.index "a" :=
    ⟨by decide +kernel, ⟨"GOTO", ["a"]⟩, .text "a", by decide +kernel,
      Fault.eq_ok_of_toOption (by decide +kernel), rfl⟩
  obtain ⟨hfound, -, -, -, hjump⟩ := label_search p m "a"
  have hone : m.findLabel "a" p.labels = .ok (some 1) := by
    refine (hfound 1).2 ⟨⟨"a", h₁, ht₁⟩, fun j hj => ?_⟩
    obtain rfl : j = 0 := by omega
    exact hp
  exact ⟨⟨h₁, ht₁, hp⟩, ⟨h₃, ht₃⟩, hseeks, hone,
    (hjump _ Host.trace r rfl hseeks).1 _ hone⟩

end Program

end SimpleBatch
