import SimpleBatch.Proofs.Control

/-!
# Runs that only go forward

A line leads forward, unless it is a jump that finds its label before it
(`Program.Leads.lt`). A run in which no jump does so (`Program.Forward`), for
one a run of a program without jumps, cannot come back to a line: it visits
lines in increasing order, and ends after as many visits as there are lines, if
not earlier (`Program.forward_ends`).
-/

namespace SimpleBatch

namespace Program

variable {σ : Type} {host : Host σ} {p : Program} {r r' : Run σ} {entry : Entry}

variable (host p) in
/-- No jump that the run comes to finds a label before it. -/
def Forward (r : Run σ) : Prop :=
  ∀ n r' j, p.resume host n r = .running r' → p.JumpsTo r'.machine.memory r'.index j →
    ¬j < r'.index

theorem forward_of_ne_goto (h : ∀ i, p.command? i ≠ some .goto) (r : Run σ) : p.Forward host r :=
  fun _ _ _ _ hj => absurd hj.command (h _)

/-- A line leads forward, unless it is a jump back. -/
theorem Leads.lt {m : Memory} {i k : Nat} (h : p.Leads m i (some k))
    (hf : ∀ j, p.JumpsTo m i j → ¬j < i) : i < k := by
  cases h with
  | skips _ _ _ _ hj => exact Nat.lt_succ_of_lt hj.lt
  | @jumps j hj => exact Nat.lt_succ_of_le (Nat.not_lt.1 (hf j hj))
  | _ => exact Nat.lt_succ_self i

namespace Forward

theorem lt (h : p.Forward host r) (he : p.entries[r.index]? = some entry)
    (hv : p.Visit host r entry (.running r')) : r.index < r'.index :=
  (hv.leads he rfl).lt fun j hj => h 0 r j rfl hj

/-- After a visit, a run still only goes forward. -/
theorem visit (h : p.Forward host r) (he : p.entries[r.index]? = some entry)
    (hv : p.Visit host r entry (.running r')) : p.Forward host r' :=
  fun n r₁ j hr₁ hj => h (n + 1) r₁ j ((resume_of_running he hv).trans hr₁) hj

/-- No line is visited before the one that the run is at. -/
theorem le_of_mem_path (h : p.Forward host r) (fuel : Nat) :
    ∀ k ∈ p.path host fuel r, r.index ≤ k := by
  induction fuel, r using run_induction host p with
  | zero r => exact fun k hk => absurd hk List.not_mem_nil
  | past fuel r he =>
    rw [path, collect_of_none _ he]
    exact fun k hk => absurd hk List.not_mem_nil
  | running fuel r entry r₁ he hv ih =>
    rw [path, collect_of_running _ he hv]
    intro k hk
    rcases List.mem_cons.1 hk with rfl | hk
    · exact Nat.le_refl _
    · exact Nat.le_of_lt (Nat.lt_of_lt_of_le (h.lt he hv) (ih (h.visit he hv) k hk))
  | ended fuel r entry x he hv hx =>
    rw [path, collect_of_ended _ he hv hx]
    exact fun k hk => Nat.le_of_eq (List.mem_singleton.1 hk).symm

/-- Lines are visited in increasing order. -/
theorem pairwise_path (h : p.Forward host r) (fuel : Nat) :
    (p.path host fuel r).Pairwise (· < ·) := by
  induction fuel, r using run_induction host p with
  | zero r => exact .nil
  | past fuel r he =>
    rw [path, collect_of_none _ he]
    exact .nil
  | running fuel r entry r₁ he hv ih =>
    have h₁ : p.Forward host r₁ := h.visit he hv
    rw [path, collect_of_running _ he hv]
    exact .cons (fun k hk => Nat.lt_of_lt_of_le (h.lt he hv) (h₁.le_of_mem_path fuel k hk)) (ih h₁)
  | ended fuel r entry x he hv hx =>
    rw [path, collect_of_ended _ he hv hx]
    exact List.pairwise_singleton _ _

/-- A run visits no more lines than there are from the one that it is at. -/
theorem index_add_length_path_le (h : p.Forward host r) (fuel : Nat) (hr : r.index ≤ p.size) :
    r.index + (p.path host fuel r).length ≤ p.size := by
  induction fuel, r using run_induction host p with
  | zero r => exact hr
  | past fuel r he =>
    rw [path, collect_of_none _ he]
    exact hr
  | running fuel r entry r₁ he hv ih =>
    have hlt : r.index < r₁.index := h.lt he hv
    have hle : r₁.index ≤ p.size := (hv.leads he rfl).le_size (lt_size_of_some he)
    have hih := ih (h.visit he hv) hle
    rw [path, collect_of_running _ he hv, List.length_append, List.length_singleton]
    rw [path] at hih
    omega
  | ended fuel r entry x he hv hx =>
    rw [path, collect_of_ended _ he hv hx]
    exact lt_size_of_some he

end Forward

/-- A run that only goes forward ends, and visits each line once at most.

    A program without jumps has no other runs. Such a run has ended when it was
    allowed one visit more than there are lines. However many visits it is
    allowed, it visits lines in increasing order, and counts no more of them
    than the program has. -/
theorem forward_ends (host : Host σ) (p : Program) (setup : Setup) (invocation : Invocation)
    (s : σ) :
    let start := Run.start setup invocation s
    ((∀ i, p.command? i ≠ some .goto) → p.Forward host start) ∧
      (p.Forward host start →
        (p.resume host (p.size + 1) start).Ended ∧
          ∀ fuel, (p.path host fuel start).Pairwise (· < ·) ∧ (p.path host fuel start).Nodup ∧
            (p.resume host fuel start).run.visited ≤ p.size) := by
  intro start
  refine ⟨fun h => forward_of_ne_goto h start, fun h => ?_⟩
  have hvisited : ∀ fuel, (p.resume host fuel start).run.visited ≤ p.size := by
    intro fuel
    rw [visited_resume]
    exact h.index_add_length_path_le fuel (Nat.zero_le _)
  refine ⟨fun r hr => ?_, fun fuel => ⟨h.pairwise_path fuel, ?_, hvisited fuel⟩⟩
  · -- If it could go on, it would have made all of these visits.
    have hv := hvisited (p.size + 1)
    have hn : r.visited = start.visited + (p.size + 1) := visited_of_resume_running hr
    rw [hr] at hv
    change r.visited ≤ p.size at hv
    omega
  · exact (h.pairwise_path fuel).imp Nat.ne_of_lt

/-- A jump forward, past a line that would fail. -/
theorem forward_ends_jump :
    let p := ofLines ["GOTO end", "ADD", "POS end", "LOG a"]
    let start := Run.start {} ⟨"T", []⟩ (#[] : Array Call)
    p.Forward Host.trace start ∧ (p.resume Host.trace 5 start).Ended ∧
      p.path Host.trace 5 start = [0, 3] ∧
      (p.resume Host.trace 5 start).run.visited ≤ 4 := by
  intro p start
  have hgoto : ∀ i < p.size, p.command? i = some .goto → i = 0 := by decide +kernel
  have hf : p.Forward Host.trace start := by
    intro n r j _ hj
    rw [hgoto r.index (lt_size_of_command? hj.command) hj.command]
    exact Nat.not_lt_zero j
  obtain ⟨he, hp⟩ := (forward_ends Host.trace p {} ⟨"T", []⟩ #[]).2 hf
  exact ⟨hf, he, by decide +kernel, (hp 5).2.2⟩

end Program

end SimpleBatch
