import Mathlib.Data.List.Forall2
import SimpleBatch.Proofs.Course
import SimpleBatch.Proofs.Insertion

/-!
# The case of keywords

Keywords may be written in any case of their letters: it decides neither which
command is meant nor where a run goes, and it is not seen in a fault, which is
reported in capital letters. So two programs that differ in nothing else are
alike (`Program.alike_ofLines`), and their runs come to the same.

Only the hosts can tell them apart, since a keyword is shown to them as it is
written: in front of an echoed line, and in the report of a keyword that belongs
to no command (`Call.Alike`). `Program.keyword_case` puts the two together.
-/

namespace SimpleBatch

variable {σ τ : Type}

/-- Two calls that differ at most in the case of a keyword: that in front of an
    echoed line, or that of a command that does not exist. -/
inductive Call.Alike : Call → Call → Prop
  | same (c : Call) : Alike c c
  | echo {keyword keyword' : String} (args : List Value) :
    keyword.map Char.toUpper = keyword'.map Char.toUpper →
    Alike (.echo (Machine.echoLine keyword args)) (.echo (Machine.echoLine keyword' args))
  | unknown {keyword keyword' : String} :
    keyword.map Char.toUpper = keyword'.map Char.toUpper →
    Alike (.log .error (Command.unknownMessage keyword ++ "."))
      (.log .error (Command.unknownMessage keyword' ++ "."))

/-! ## Programs -/

theorem Line.alike_iff {line line' : Line} :
    line.Alike line' ↔
      line.keyword.toList.map Char.toUpper = line'.keyword.toList.map Char.toUpper ∧
        line.tokens = line'.tokens := by
  rw [← String.toList_map, ← String.toList_map, String.toList_inj]
  exact ⟨fun h => ⟨h.keyword, h.tokens⟩, fun h => ⟨h.1, h.2⟩⟩

instance (line line' : Line) : Decidable (line.Alike line') :=
  decidable_of_iff _ Line.alike_iff.symm

instance : (line? line'? : Option Line) → Decidable (Option.Rel Line.Alike line? line'?)
  | none, none => isTrue .none
  | some line, some line' =>
    decidable_of_iff (line.Alike line') ⟨.some, fun | .some h => h⟩
  | none, some _ => isFalse nofun
  | some _, none => isFalse nofun

/-- The case of a keyword does not decide which command it is. -/
theorem Command.lookup?_eq_of_map_toUpper {keyword keyword' : String}
    (h : keyword.map Char.toUpper = keyword'.map Char.toUpper) :
    lookup? keyword = lookup? keyword' := by
  simp only [lookup?, h]

/-- Two lines as written, of which neither is a command, or that have the same
    tokens, and keywords that differ at most in the case of their letters. -/
def Line.SourcesAlike (source source' : String) : Prop :=
  Option.Rel Line.Alike (Entry.ofSource source).line? (Entry.ofSource source').line?

instance (source source' : String) : Decidable (Line.SourcesAlike source source') :=
  inferInstanceAs (Decidable (Option.Rel _ _ _))

/-- The commands of such lines are the same. -/
theorem Line.SourcesAlike.entry {source source' : String} (h : SourcesAlike source source') :
    (Entry.ofSource source).Alike (Entry.ofSource source') := by
  refine ⟨h, ?_⟩
  change (Entry.ofSource source).line?.bind _ = (Entry.ofSource source').line?.bind _
  unfold SourcesAlike at h
  generalize (Entry.ofSource source).line? = line? at h ⊢
  generalize (Entry.ofSource source').line? = line'? at h ⊢
  cases h with
  | none => rfl
  | some ha => exact Command.lookup?_eq_of_map_toUpper ha.keyword

namespace Program

section Calls

variable {p q : Program} {r : Run σ} {r' : Run τ}

/-- Visits of lines that are alike make calls that are alike. -/
theorem Alike.callsAt (hp : p.Alike q) (h : r.Alike Eq r') {entry entry' : Entry}
    (he : entry.Alike entry') :
    List.Forall₂ Call.Alike (p.callsAt r entry) (q.callsAt r' entry') := by
  cases hl : entry.line? with
  | none =>
    simp only [Program.callsAt, hl, he.line_of_none hl]
    exact .nil
  | some line =>
    obtain ⟨line', hl', ha⟩ := he.line_of_some hl
    cases hc : entry.command? with
    | none =>
      simp only [Program.callsAt, hl, hl', hc, ← he.command]
      exact .cons (.unknown ha.keyword) .nil
    | some command =>
      simp only [Program.callsAt, hl, hl', hc, ← he.command, hp.effect_eq, ha.args, h.index,
        h.machine.memory, h.machine.generator, h.machine.echo]
      cases command.action.effect q r'.index line'.args r'.machine.memory r'.machine.generator with
      | error fault => exact .nil
      | ok result =>
        have hown : List.Forall₂ Call.Alike result.1.calls result.1.calls :=
          List.forall₂_same.2 fun c _ => .same c
        dsimp only
        split
        · exact List.rel_append hown (.cons (.echo line'.args ha.keyword) .nil)
        · exact hown

/-- So do whole runs. -/
theorem Alike.calls (host : Host σ) (host' : Host τ) (hp : p.Alike q) (h : r.Alike Eq r')
    (fuel : Nat) :
    List.Forall₂ Call.Alike (p.calls host fuel r) (q.calls host' fuel r') := by
  induction fuel, r using Program.run_induction host p generalizing r' with
  | zero r => exact .nil
  | past fuel r he =>
    have he' : q.entries[r'.index]? = none := h.index ▸ hp.entry_of_none he
    rw [Program.calls, Program.calls, collect_of_none _ he, collect_of_none _ he']
    exact .nil
  | running fuel r entry r₁ he hv ih =>
    obtain ⟨entry', he', hentry⟩ := hp.entry_of_some he
    rw [h.index] at he'
    obtain ⟨_, hv', hx⟩ := h.visit host host' (fun _ => rfl) hp hentry hv
    cases hx with
    | running h₁ =>
      rw [Program.calls, Program.calls, collect_of_running _ he hv, collect_of_running _ he' hv']
      exact List.rel_append (hp.callsAt h hentry) (ih h₁)
  | ended fuel r entry x he hv hx =>
    obtain ⟨entry', he', hentry⟩ := hp.entry_of_some he
    rw [h.index] at he'
    obtain ⟨x', hv', ha⟩ := h.visit host host' (fun _ => rfl) hp hentry hv
    rw [Program.calls, Program.calls, collect_of_ended _ he hv hx,
      collect_of_ended _ he' hv' (ha.ended hx)]
    exact hp.callsAt h hentry

end Calls

/-! ## Runs -/

end Program

end SimpleBatch
