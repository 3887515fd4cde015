import SimpleBatch.Proofs.Calls

/-!
# Lines that are no commands

A line that is no command can be put anywhere into a program, and nobody but
the count of visited lines takes notice (`Program.resume_insertIdx`).

The lines from the new one on are renumbered (`shift`), and with them what a
program says about its lines: the end of a condition (`Inserted.endIfAfter?_shift`)
and the labels (`Inserted.labels_shift`). So a command has the same effect, and the
same flow up to the renumbering (`Inserted.effect_shift`).

The two runs are then related visit by visit. They are at the same line, or one
of them is about to visit the new line and pass over it (`Matches`); for a jump to
the line before the new one leads there in one program, and past it in the other.
-/

namespace SimpleBatch

open Text

variable {σ : Type}

/-! ## Renumbering -/

/-- The index of a line after another one was inserted at `i`. -/
def shift (i k : Nat) : Nat :=
  if k < i then k else k + 1

theorem shift_of_lt {i k : Nat} (h : k < i) : shift i k = k :=
  if_pos h

theorem shift_of_le {i k : Nat} (h : i ≤ k) : shift i k = k + 1 :=
  if_neg (Nat.not_lt.2 h)

theorem shift_ne (i k : Nat) : shift i k ≠ i := by
  unfold shift
  split <;> omega

theorem shift_lt_shift {i j k : Nat} : shift i j < shift i k ↔ j < k := by
  unfold shift
  split <;> split <;> omega

/-- The line after another one is still the line after it, unless the new line
    is between them. -/
theorem shift_succ (i k : Nat) :
    shift i k + 1 = shift i (k + 1) ∨ k + 1 = i ∧ shift i k + 1 = i := by
  unfold shift
  split <;> split <;> omega

/-- The indices of all lines but the new one are those of the old lines. -/
theorem filter_range_succ {i n : Nat} (h : i ≤ n) :
    (List.range (n + 1)).filter (· ≠ i) = (List.range n).map (shift i) := by
  obtain ⟨d, rfl⟩ := Nat.exists_eq_add_of_le h
  -- By induction on the number of lines after the new one.
  induction d with
  | zero =>
    have hlt : ∀ k ∈ List.range i, shift i k = k := fun k hk => shift_of_lt (List.mem_range.1 hk)
    have hne : ∀ k ∈ List.range i, decide (k ≠ i) = true := fun k hk =>
      decide_eq_true (Nat.ne_of_lt (List.mem_range.1 hk))
    simp only [Nat.add_zero]
    rw [List.range_succ, List.filter_append, List.filter_eq_self.2 hne, List.map_congr_left hlt]
    simp
  | succ d ih =>
    have hd : i + d + 1 ≠ i := by omega
    rw [← Nat.add_assoc, List.range_succ, List.filter_append, ih (Nat.le_add_right i d),
      List.range_succ (n := i + d), List.map_append, List.map_singleton,
      shift_of_le (Nat.le_add_right i d)]
    simp [hd]

/-- A search of all lines that passes over the new one is a search of the old
    lines. -/
theorem find?_range_succ {i n : Nat} {f : Nat → Bool} (h : i ≤ n) (hi : f i = false) :
    (List.range (n + 1)).find? f =
      ((List.range n).find? fun k => f (shift i k)).map (shift i) := by
  have hf : (fun k => decide (decide (k ≠ i) = true ∧ f k = true)) = f := by
    funext k
    by_cases hk : k = i
    · simp [hk, hi]
    · simp [hk]
  calc (List.range (n + 1)).find? f
      = ((List.range (n + 1)).filter (· ≠ i)).find? f := by rw [List.find?_filter, hf]
    _ = ((List.range n).find? (f ∘ shift i)).map (shift i) := by
        rw [filter_range_succ h, List.find?_map]

/-- So is a selection. -/
theorem filterMap_range_succ {α : Type} {i n : Nat} {f : Nat → Option α} (h : i ≤ n)
    (hi : f i = none) :
    (List.range (n + 1)).filterMap f = (List.range n).filterMap fun k => f (shift i k) := by
  have hf : (fun k => if decide (k ≠ i) = true then f k else none) = f := by
    funext k
    by_cases hk : k = i
    · simp [hk, hi]
    · simp [hk]
  calc (List.range (n + 1)).filterMap f
      = ((List.range (n + 1)).filter (· ≠ i)).filterMap f := by rw [List.filterMap_filter, hf]
    _ = (List.range n).filterMap (f ∘ shift i) := by rw [filter_range_succ h, List.filterMap_map]

/-- A list with something inserted has the old things at their new indices. -/
theorem getElem?_insertIdx_shift {α : Type} (i k : Nat) (l : List α) (a : α) :
    (l.insertIdx i a)[shift i k]? = l[k]? := by
  by_cases h : k < i
  · rw [shift_of_lt h, List.getElem?_insertIdx_of_lt h]
  · have hk : i ≤ k := Nat.not_lt.1 h
    rw [shift_of_le hk, List.getElem?_insertIdx_of_gt (Nat.lt_succ_of_le hk), Nat.succ_sub_one]

/-- A flow, renumbered. -/
def Flow.map (f : Nat → Nat) : Flow → Flow
  | .next => .next
  | .after j => .after (f j)
  | .halt => .halt

/-- A fault, with the number of its line after a line was inserted at `i`. -/
def ScriptError.shift (i : Nat) (e : ScriptError) : ScriptError :=
  { e with line := if i < e.line then e.line + 1 else e.line }

theorem ScriptError.shift_mk (i k : Nat) (command : String) (fault : Fault) :
    (ScriptError.mk (k + 1) command fault).shift i =
      ⟨SimpleBatch.shift i k + 1, command, fault⟩ := by
  simp only [ScriptError.shift, SimpleBatch.shift, mk.injEq, and_true]
  split <;> split <;> omega

/-- Renumbered labels are found where they are now. -/
theorem Memory.findLabel_map (m : Memory) (target : String) (f : Nat → Nat)
    (l : List (Nat × String)) :
    m.findLabel target (l.map fun label => (f label.1, label.2)) =
      (m.findLabel target l).map (Option.map f) := by
  induction l with
  | nil => rfl
  | cons label l ih =>
    simp only [List.map_cons, findLabel]
    cases m.resolve .composite (.ofToken label.2) with
    | error fault => rfl
    | ok v =>
      simp only [Fault.ok_bind]
      split
      · rfl
      · exact ih

/-! ## Programs with an inserted line -/

/-- The program `q` is `p` with one more line at `i`, which is no command. -/
structure Inserted (i : Nat) (p q : Program) : Prop where
  le_size : i ≤ p.size
  size_eq : q.size = p.size + 1
  blank : ∃ entry, q.entries[i]? = some entry ∧ entry.line? = none ∧ entry.command? = none
  entries_shift : ∀ k, q.entries[shift i k]? = p.entries[k]?

namespace Program

theorem size_ofLines (lines : List String) : (ofLines lines).size = lines.length := by
  simp [ofLines, size]

/-- So it is when the line is inserted as written. -/
theorem inserted_insertIdx {lines : List String} {i : Nat} {l : String} (hi : i ≤ lines.length)
    (hl : Line.parse? (String.ofList (Escape.decode .script l.toList)) = none) :
    Inserted i (ofLines lines) (ofLines (lines.insertIdx i l)) where
  le_size := by rw [size_ofLines]; exact hi
  size_eq := by rw [size_ofLines, size_ofLines, List.length_insertIdx_of_le_length hi]
  blank := by
    refine ⟨Entry.ofSource l, ?_, hl, ?_⟩
    · rw [entries_ofLines, List.getElem?_insertIdx_self, if_pos hi, Option.map_some]
    · simp only [Entry.ofSource, hl, Option.bind_none]
  entries_shift k := by rw [entries_ofLines, getElem?_insertIdx_shift, entries_ofLines]

end Program

namespace Inserted

variable {i : Nat} {p q : Program} (h : Inserted i p q)

include h

theorem line?_shift (k : Nat) : q.line? (shift i k) = p.line? k := by
  rw [Program.line?, h.entries_shift, Program.line?]

theorem command?_shift (k : Nat) : q.command? (shift i k) = p.command? k := by
  rw [Program.command?, h.entries_shift, Program.command?]

theorem command?_self : q.command? i = none := by
  obtain ⟨entry, he, -, hc⟩ := h.blank
  rw [Program.command?_of_some he, hc]

/-- The end of a condition is where it was. -/
theorem endIfAfter?_shift (k : Nat) :
    q.endIfAfter? (shift i k) = (p.endIfAfter? k).map (shift i) := by
  rw [Program.endIfAfter?, h.size_eq, find?_range_succ h.le_size (by simp [h.command?_self])]
  simp only [shift_lt_shift, h.command?_shift]
  rfl

/-- The labels are where they were. -/
theorem labels_shift : q.labels = p.labels.map fun label => (shift i label.1, label.2) := by
  rw [Program.labels, h.size_eq, filterMap_range_succ h.le_size (by simp [h.command?_self]),
    Program.labels, List.map_filterMap]
  congr 1
  funext k
  rw [h.command?_shift, h.line?_shift]
  split
  · cases p.line? k with
    | none => rfl
    | some line => simp [Function.comp_def]
  · rfl

/-- A command has the same effect, and the same flow up to the renumbering. -/
theorem effect_shift (k : Nat) (args : List Value) (m : Memory) (g : Generator) (a : Action) :
    a.effect q (shift i k) args m g =
      (a.effect p k args m g).map fun result => (result.1, result.2.map (shift i)) := by
  cases a with
  | condition =>
    simp only [Action.effect, h.endIfAfter?_shift]
    cases m.operand .native args with
    | error fault => rfl
    | ok value => cases hv : value.isTrue <;> cases p.endIfAfter? k <;> simp [hv, Flow.map]
  | jump =>
    simp only [Action.effect, h.labels_shift, m.findLabel_map]
    cases m.operand .composite args with
    | error fault => rfl
    | ok target =>
      cases hl : m.findLabel target.render p.labels with
      | error fault => simp [hl]
      | ok label => cases label <;> simp [hl, Flow.map]
  | draw =>
    simp only [Action.effect]
    cases m.drawn g args with
    | error fault => rfl
    | ok drawn => cases hm : m.assign drawn.1 (Memory.drawDestination args) <;> simp [hm, Flow.map]
  | operate op => cases hm : op.run m args <;> simp [Action.effect, hm, Flow.map]
  | declare => cases hm : m.declareArgs args <;> simp [Action.effect, hm, Flow.map]
  | execute | log level =>
    cases hv : m.required .composite args <;> simp [Action.effect, hv, Flow.map]
  | setEcho => cases hv : m.required .native args <;> simp [Action.effect, hv, Flow.map]
  | pass | halt | clear => rfl

end Inserted

/-! ## Related runs -/

/-- Two runs are at the same line. -/
structure Aligned (i : Nat) (r r' : Run σ) : Prop where
  machine : r'.machine = r.machine
  index : r'.index = shift i r.index

/-- Two runs are at the same line, or the second one is at the new line just
    before it. -/
structure Matches (i : Nat) (r r' : Run σ) : Prop where
  machine : r'.machine = r.machine
  index : r'.index = shift i r.index ∨ r.index = i ∧ r'.index = i

/-- After the same line, two runs match. -/
theorem matches_after {i j : Nat} {r r' : Run σ} (hm : r'.machine = r.machine)
    (hr : r.index = j + 1) (hr' : r'.index = shift i j + 1) : Matches i r r' := by
  refine ⟨hm, ?_⟩
  rw [hr, hr']
  exact shift_succ i j

/-- A run begins at the same line, or at the new one before it. -/
theorem matches_start (i : Nat) (setup : Setup) (invocation : Invocation) (s : σ) :
    Matches i (Run.start setup invocation s) (Run.start setup invocation s) := by
  refine ⟨rfl, ?_⟩
  rcases Nat.eq_zero_or_pos i with hi | hi
  · exact .inr ⟨hi.symm, hi.symm⟩
  · exact .inl (shift_of_lt hi).symm

/-- Two runs have come to the same, up to the renumbering. -/
inductive Progress.Matches (i : Nat) : Progress σ → Progress σ → Prop
  | running {r r' : Run σ} : SimpleBatch.Matches i r r' → Matches i (.running r) (.running r')
  | finished {r r' : Run σ} : r'.machine = r.machine → Matches i (.finished r) (.finished r')
  | failed {e : ScriptError} {r r' : Run σ} : r'.machine = r.machine →
    Matches i (.failed e r) (.failed (e.shift i) r')

theorem Progress.Matches.ended {i : Nat} {x x' : Progress σ} (h : Matches i x x') (hx : x.Ended) :
    x'.Ended := by
  cases h with
  | running => exact absurd rfl (hx _)
  | finished => exact nofun
  | failed => exact nofun

namespace Inserted

variable {host : Host σ} {i : Nat} {p q : Program} {r r' : Run σ}

/-- At the same line, two runs do the same. -/
theorem visit_matches (h : Inserted i p q) (ha : Aligned i r r') {entry : Entry} {x : Progress σ}
    (hv : p.Visit host r entry x) : ∃ x', q.Visit host r' entry x' ∧ Progress.Matches i x x' := by
  cases hv with
  | blank hl =>
    exact ⟨_, .blank hl, .running (matches_after ha.machine rfl (congrArg (· + 1) ha.index))⟩
  | unknown hl hc =>
    refine ⟨_, .unknown hl hc, .running (matches_after ?_ rfl (congrArg (· + 1) ha.index))⟩
    simp only [ha.machine]
  | @command line command e flow hl hc he =>
    have hq : command.action.effect q r'.index line.args r'.machine.memory r'.machine.generator =
        .ok (e, flow.map (shift i)) := by
      rw [ha.index, ha.machine, h.effect_shift, he, Fault.ok_map]
    refine ⟨_, .command hl hc hq, ?_⟩
    rw [ha.machine]
    cases flow with
    | next => exact .running (matches_after rfl rfl (congrArg (· + 1) ha.index))
    | after j => exact .running (matches_after rfl rfl rfl)
    | halt => exact .finished rfl
  | @fault line command fault hl hc he =>
    have hq : command.action.effect q r'.index line.args r'.machine.memory r'.machine.generator =
        .error fault := by
      rw [ha.index, ha.machine, h.effect_shift, he, Fault.error_map]
    refine ⟨_, .fault hl hc hq, ?_⟩
    rw [ha.index, ← ScriptError.shift_mk, ha.machine]
    exact .failed rfl

/-- And the host hears the same. -/
theorem callsAt_eq (h : Inserted i p q) (ha : Aligned i r r') (entry : Entry) :
    q.callsAt r' entry = p.callsAt r entry := by
  simp only [Program.callsAt, ha.index, ha.machine, h.effect_shift]
  cases entry.line? with
  | none => rfl
  | some line =>
    cases entry.command? with
    | none => rfl
    | some command =>
      cases he : command.action.effect p r.index line.args r.machine.memory r.machine.generator <;>
        simp [he]

end Inserted

/-- With `fuel'` visits, a run of `q` comes to what a run of `p` comes to with
    `fuel`, makes the same calls, and visits the same lines besides the new one. -/
structure Simulates (host : Host σ) (i : Nat) (p q : Program) (fuel fuel' : Nat) (r r' : Run σ) :
    Prop where
  le : fuel ≤ fuel'
  progress : Progress.Matches i (p.resume host fuel r) (q.resume host fuel' r')
  calls : q.calls host fuel' r' = p.calls host fuel r
  path : (q.path host fuel' r').filter (· ≠ i) = (p.path host fuel r).map (shift i)

namespace Inserted

variable {host : Host σ} {i : Nat} {p q : Program} {r r' : Run σ} {fuel : Nat}

theorem filter_of_aligned (ha : Aligned i r r') :
    [r'.index].filter (· ≠ i) = [r.index].map (shift i) := by
  simp [ha.index, shift_ne]

theorem entries_of_aligned (h : Inserted i p q) (ha : Aligned i r r') :
    q.entries[r'.index]? = p.entries[r.index]? := by
  rw [ha.index, h.entries_shift]

/-- A run at the new line passes over it, and then is at the same line as the
    other. -/
theorem simulates_of_aligned (h : Inserted i p q)
    (ha : ∀ r', Aligned i r r' → ∃ fuel', Simulates host i p q fuel fuel' r r')
    (hm : Matches i r r') : ∃ fuel', Simulates host i p q fuel fuel' r r' := by
  rcases hm.index with hi | ⟨hr, hr'⟩
  · exact ha r' ⟨hm.machine, hi⟩
  · obtain ⟨entry, he, hl, -⟩ := h.blank
    have he' : q.entries[r'.index]? = some entry := by rw [hr', he]
    have hv : q.Visit host r' entry
        (.running { r' with index := r'.index + 1, visited := r'.visited + 1 }) := .blank hl
    obtain ⟨fuel', hs⟩ := ha { r' with index := r'.index + 1, visited := r'.visited + 1 }
      ⟨hm.machine, by rw [hr, shift_of_le (Nat.le_refl i), hr']⟩
    refine ⟨fuel' + 1, Nat.le_succ_of_le hs.le, ?_, ?_, ?_⟩
    · rw [Program.resume_of_running he' hv]
      exact hs.progress
    · rw [Program.calls, Program.collect_of_running _ he' hv, Program.callsAt, hl]
      exact hs.calls
    · have hf : [r'.index].filter (· ≠ i) = [] := by simp [hr']
      rw [Program.path, Program.collect_of_running _ he' hv, List.filter_append, hf]
      exact hs.path

variable (host) in
/-- Every run of the program is followed by a run with the new line: after one
    visit at the same line, both go on, or both end. -/
theorem simulates (h : Inserted i p q) (fuel : Nat) (hm : Matches i r r') :
    ∃ fuel', Simulates host i p q fuel fuel' r r' := by
  -- Along the run of `p`. The run of `q` is at the same line after at most one
  -- visit, and needs that much fuel besides.
  induction fuel, r using Program.run_induction host p generalizing r' with
  | zero r => exact ⟨0, Nat.le_refl 0, .running hm, rfl, rfl⟩
  | past fuel r he =>
    refine h.simulates_of_aligned (fun r' ha => ⟨fuel + 1, Nat.le_refl _, ?_, ?_, ?_⟩) hm
    all_goals have he' := (h.entries_of_aligned ha).trans he
    · rw [Program.resume_of_none he, Program.resume_of_none he']
      exact .finished ha.machine
    · rw [Program.calls, Program.calls, Program.collect_of_none _ he, Program.collect_of_none _ he']
    · rw [Program.path, Program.path, Program.collect_of_none _ he, Program.collect_of_none _ he']
      rfl
  | running fuel r entry r₁ he hv ih =>
    refine h.simulates_of_aligned (fun r' ha => ?_) hm
    have he' := (h.entries_of_aligned ha).trans he
    obtain ⟨_, hv', hx⟩ := h.visit_matches ha hv
    cases hx with
    | @running _ r₁' hm₁ =>
      obtain ⟨fuel', hs⟩ := ih hm₁
      refine ⟨fuel' + 1, Nat.succ_le_succ hs.le, ?_, ?_, ?_⟩
      · rw [Program.resume_of_running he hv, Program.resume_of_running he' hv']
        exact hs.progress
      · rw [Program.calls, Program.calls, Program.collect_of_running _ he hv,
          Program.collect_of_running _ he' hv', h.callsAt_eq ha]
        exact congrArg _ hs.calls
      · rw [Program.path, Program.path, Program.collect_of_running _ he hv,
          Program.collect_of_running _ he' hv', List.filter_append, List.map_append,
          filter_of_aligned ha]
        exact congrArg _ hs.path
  | ended fuel r entry x he hv hx =>
    refine h.simulates_of_aligned (fun r' ha => ?_) hm
    have he' := (h.entries_of_aligned ha).trans he
    obtain ⟨x', hv', hm'⟩ := h.visit_matches ha hv
    have hx' : x'.Ended := hm'.ended hx
    refine ⟨fuel + 1, Nat.le_refl _, ?_, ?_, ?_⟩
    · rw [Program.resume_of_ended he hv hx, Program.resume_of_ended he' hv' hx']
      exact hm'
    · rw [Program.calls, Program.calls, Program.collect_of_ended _ he hv hx,
        Program.collect_of_ended _ he' hv' hx', h.callsAt_eq ha]
    · rw [Program.path, Program.path, Program.collect_of_ended _ he hv hx,
        Program.collect_of_ended _ he' hv' hx', filter_of_aligned ha]

end Inserted

/-- The second run counts its visits of the new line besides. -/
theorem Simulates.visited {host : Host σ} {i : Nat} {p q : Program} {fuel fuel' : Nat} {r : Run σ}
    (h : Simulates host i p q fuel fuel' r r) :
    (q.resume host fuel' r).run.visited =
      (p.resume host fuel r).run.visited + (q.path host fuel' r).count i := by
  have hi : (fun k => decide ¬decide (k ≠ i) = true) = (· == i) := by
    funext k
    by_cases hk : k = i <;> simp [hk]
  have hl : (q.path host fuel' r).length =
      (p.path host fuel r).length + (q.path host fuel' r).count i := by
    rw [List.length_eq_countP_add_countP (· ≠ i), List.countP_eq_length_filter, h.path,
      List.length_map, hi, List.count]
  rw [Program.visited_resume, Program.visited_resume, hl, Nat.add_assoc]

/-- Neither run ends, or both do: the second one makes at least as many visits
    as the first. -/
theorem Inserted.diverges_iff {host : Host σ} {i : Nat} {p q : Program} {r r' : Run σ}
    (h : Inserted i p q) (hm : Matches i r r') : q.Diverges host r' ↔ p.Diverges host r := by
  constructor
  · intro hq fuel
    obtain ⟨fuel', hs⟩ := h.simulates host fuel hm
    obtain ⟨r₁', hr₁'⟩ := hq fuel'
    generalize hx : p.resume host fuel r = x
    have hp := hs.progress
    rw [hr₁', hx] at hp
    cases hp with
    | @running r₁ => exact ⟨r₁, rfl⟩
  · intro hp fuel
    obtain ⟨fuel', hs⟩ := h.simulates host fuel hm
    obtain ⟨r₁, hr₁⟩ := hp fuel
    generalize hx : q.resume host fuel' r' = x
    have hq := hs.progress
    rw [hr₁, hx] at hq
    cases hq with
    | running => exact Program.exists_running_of_le hs.le hx

namespace Program

/-- A line that is no command may be inserted anywhere.

    The run of the longer program ends if the other one does, with the same
    memory, echoing, generator and host, and after the same calls. It ends in a
    fault if the other one does, which is the same but for the number of its
    line: that is one more if the line is at the new one's place or after it.
    And it visits as many lines as the other, besides its visits of the new one. -/
theorem resume_insertIdx (host : Host σ) (lines : List String) {i : Nat} {l : String}
    (hi : i ≤ lines.length)
    (hl : Line.parse? (String.ofList (Escape.decode .script l.toList)) = none)
    (setup : Setup) (invocation : Invocation) (s : σ) :
    let p := ofLines lines
    let q := ofLines (lines.insertIdx i l)
    let start := Run.start setup invocation s
    (q.Diverges host start ↔ p.Diverges host start) ∧
      (∀ fuel r, p.resume host fuel start = .finished r →
        ∃ fuel' r', q.resume host fuel' start = .finished r' ∧ r'.machine = r.machine ∧
          q.calls host fuel' start = p.calls host fuel start ∧
          r'.visited = r.visited + (q.path host fuel' start).count i) ∧
      ∀ fuel e r, p.resume host fuel start = .failed e r →
        ∃ fuel' r',
          q.resume host fuel' start =
            .failed { e with line := if i < e.line then e.line + 1 else e.line } r' ∧
          r'.machine = r.machine ∧
          q.calls host fuel' start = p.calls host fuel start ∧
          r'.visited = r.visited + (q.path host fuel' start).count i := by
  intro p q start
  have h : Inserted i p q := inserted_insertIdx hi hl
  have hm : Matches i start start := matches_start i setup invocation s
  refine ⟨h.diverges_iff hm, fun fuel r hr => ?_, fun fuel e r hr => ?_⟩
  all_goals
    obtain ⟨fuel', hs⟩ := h.simulates host fuel hm
    generalize hx : q.resume host fuel' start = x
    have hp := hs.progress
    have hv := hs.visited
    rw [hr, hx] at hp hv
  · cases hp with
    | @finished _ r' hm' => exact ⟨fuel', r', hx, hm', hs.calls, hv⟩
  · cases hp with
    | @failed _ _ r' hm' => exact ⟨fuel', r', hx, hm', hs.calls, hv⟩

/-- A jump to the line before the new one, and a fault after it. -/
theorem resume_insertIdx_jump :
    let lines := ["GOTO end", "LOG a", "POS end", "ADD"]
    let p := ofLines lines
    let q := ofLines (lines.insertIdx 3 "# x")
    let start := Run.start {} ⟨"T", []⟩ (#[] : Array Call)
    Line.parse? (String.ofList (Escape.decode .script "# x".toList)) = none ∧
      ∃ r fuel' r', p.resume Host.trace 3 start = .failed ⟨4, "ADD", .argumentCount 0⟩ r ∧
        q.resume Host.trace fuel' start = .failed ⟨5, "ADD", .argumentCount 0⟩ r' ∧
        r'.machine = r.machine ∧
        r'.visited = r.visited + (q.path Host.trace fuel' start).count 3 := by
  intro lines p q start
  have hf : (p.resume Host.trace 3 start).error? = some ⟨4, "ADD", .argumentCount 0⟩ := by
    decide +kernel
  obtain ⟨r, hr⟩ := Progress.exists_of_error? hf
  have hl : Line.parse? (String.ofList (Escape.decode .script "# x".toList)) = none := by
    decide +kernel
  have hi : 3 ≤ lines.length := by decide
  obtain ⟨fuel', r', hr', hm, -, hv⟩ :=
    (resume_insertIdx Host.trace lines hi hl {} ⟨"T", []⟩ #[]).2.2 3 _ r hr
  exact ⟨hl, r, fuel', r', hr, hr', hm, hv⟩

end Program

end SimpleBatch
