import SimpleBatch.Machine
import SimpleBatch.Proofs.Token

/-!
# Echoed lines

A line is echoed with its keyword and the values of its tokens, a text between quotes
only if there is white space in it. So not every value can be told from its echo. Those
that can (`Machine.Readable`) are the integers, the texts with white space that can
stand between quotes, and the texts that would also be written bare in a script and
mean themselves there. An echoed line of such values is read as a line with the same
keyword and tokens of the same values (`Machine.parse_echoLine`).

Each echoed value is a token as a whole, whatever item ends after it
(`Readable.isToken`), so the tokens between the commas form the longest chain of items
(`chain_echoed`).
-/

namespace SimpleBatch.Machine

open Text Line

variable {v : Value} {vs : List Value} {tail rest space : List Char}

/-- A value that can be read back from an echoed line. -/
inductive Readable : Value → Prop
  | integer (n : Int32) : Readable (.integer n)
  /-- A text with white space, which is echoed between quotes. -/
  | spaced {s : String} : (∃ c ∈ s.toList, isSpace c) → Enclosable s.toList → Readable (.text s)
  /-- A text without, which is echoed as it is, and denotes itself. -/
  | bare {s : String} : s ≠ "" → (∀ c ∈ s.toList, ¬isSpace c ∧ c ≠ ',') →
    s.toList.head? ≠ some '"' → Value.ofToken s = .text s → Readable (.text s)

theorem echoArg_integer (n : Int32) : echoArg (.integer n) = String.ofList (decimalInt n.toInt) :=
  rfl

theorem echoArg_spaced {s : String} (h : ∃ c ∈ s.toList, isSpace c) :
    echoArg (.text s) = String.ofList (Value.token (.text s)) := by
  have hany : s.toList.any isSpace := List.any_eq_true.2 h
  refine String.toList_inj.1 ?_
  simp [echoArg, hany, Value.token]

theorem echoArg_bare {s : String} (h : ∀ c ∈ s.toList, ¬isSpace c ∧ c ≠ ',') :
    echoArg (.text s) = s := by
  have hany : s.toList.any isSpace = false :=
    List.any_eq_false.2 fun c hc => (h c hc).1
  simp [echoArg, hany]

/-- An echoed value is a token as a whole. -/
theorem Readable.isToken (h : Readable v) (he : EndsItem tail rest) :
    IsToken (echoArg v).toList tail := by
  cases h with
  | integer n =>
    rw [echoArg_integer, String.toList_ofList, ← Value.token_integer]
    exact isToken_integer n he
  | spaced hspace henc =>
    rw [echoArg_spaced hspace, String.toList_ofList]
    exact isToken_quoted henc he
  | @bare s hne hbare hquote =>
    rw [echoArg_bare hbare]
    obtain ⟨c, run, hs⟩ := List.exists_cons_of_ne_nil (mt String.toList_eq_nil_iff.1 hne)
    rw [hs] at hbare hquote ⊢
    exact .bare (by simpa using hquote) hbare he.head?

/-- The token of an echoed value denotes the value. -/
theorem Readable.ofToken_echoArg (h : Readable v) : Value.ofToken (echoArg v) = v := by
  cases h with
  | integer n =>
    rw [echoArg_integer, ← Value.token_integer]
    exact Value.ofToken_integer n
  | spaced hspace =>
    rw [echoArg_spaced hspace]
    exact Value.ofToken_text _
  | bare _ hbare _ htoken => rw [echoArg_bare hbare, htoken]

/-- The items of echoed values are their tokens. -/
theorem chain_echoed (h : ∀ w ∈ v :: vs, Readable w) (hspace : ∀ c ∈ space, isSpace c) :
    Chain (space ++ (String.intercalate ", " ((v :: vs).map echoArg)).toList)
      ((v :: vs).map fun w => (echoArg w).toList) [] := by
  -- The blank after a comma belongs to the next item, so the induction carries white
  -- space in front of the values.
  induction vs generalizing v space with
  | nil =>
    have htoken := (h v List.mem_cons_self).isToken .nil
    simpa using Chain.cons (.mk hspace htoken .nil) .nil
  | cons w vs ih =>
    obtain ⟨hv, hvs⟩ := List.forall_mem_cons.1 h
    have hends (cs : List Char) : EndsItem (',' :: cs) cs := .comma (List.forall_mem_nil _)
    have hblank : ∀ c ∈ [' '], isSpace c := List.forall_mem_singleton.2 rfl
    have hchain := Chain.cons (.mk hspace (hv.isToken (hends _)) (hends _)) (ih hvs hblank)
    simpa using hchain

/-- Echoed lines are read back.

    Let a keyword be made of letters, and let there be at most nine values that can be
    read back. The line that is echoed for them is read as one with that keyword, and
    its tokens denote the values, in their order. -/
theorem parse_echoLine {keyword : String} {args : List Value} (hne : keyword ≠ "")
    (hkeyword : ∀ c ∈ keyword.toList, c.isAlpha) (hlength : args.length ≤ 9)
    (hargs : ∀ v ∈ args, Readable v) :
    ∃ tokens, Line.parse? (echoLine keyword args) = some ⟨keyword, tokens⟩ ∧
      tokens.length = args.length ∧ tokens.map Value.ofToken = args := by
  have hlast : ∀ token rest, ¬IsItem [] token rest := fun token rest hi => by
    simpa using hi.length_lt
  have hvalues : (args.map echoArg).map Value.ofToken = args := by
    rw [List.map_map]
    exact (List.map_congr_left fun v hv => (hargs v hv).ofToken_echoArg).trans (List.map_id' args)
  refine ⟨args.map echoArg, parse?_eq_some.2 ?_, List.length_map _, hvalues⟩
  cases args with
  | nil =>
    refine ⟨[], keyword.toList, [], [], ?_, List.forall_mem_nil _,
      mt String.toList_eq_nil_iff.1 hne, hkeyword, by simp, ?_, by simp⟩
    · simp [echoLine]
    · exact longestChain_iff.2 ⟨[], .nil, hlast⟩
  | cons v vs =>
    have hblank : ∀ c ∈ [' '], isSpace c := List.forall_mem_singleton.2 rfl
    have hchain := chain_echoed hargs hblank
    refine ⟨[], keyword.toList, _, _, ?_, List.forall_mem_nil _,
      mt String.toList_eq_nil_iff.1 hne, hkeyword, ?_, longestChain_iff.2 ⟨[], hchain, hlast⟩, ?_⟩
    · simp [echoLine]
    · simp
    · rw [List.take_of_length_le (by simpa using hlength)]
      simp

/-- An integer, a text with commas, quotes and white space, a reference and a text
    with a quote inside. -/
theorem parse_echoLine_mixed :
    let args : List Value :=
      [.integer (-7), .text "x, \"y\" z\"", .text "%&total%", .text "a\"b"]
    (∀ c ∈ "Log".toList, c.isAlpha) ∧ args.length ≤ 9 ∧ (∀ v ∈ args, Readable v) ∧
      echoLine "Log" args = "Log -7, \"x, \"y\" z\"\", %&total%, a\"b" ∧
      ∃ tokens, Line.parse? (echoLine "Log" args) = some ⟨"Log", tokens⟩ ∧
        tokens.length = 4 ∧ tokens.map Value.ofToken = args := by
  intro args
  have hkeyword : ∀ c ∈ "Log".toList, c.isAlpha := List.all_eq_true.1 (by decide)
  have hbare {s : String} (hs : s ≠ "" ∧ s.toList.any (fun c => isSpace c || c == ',') = false ∧
      s.toList.head? ≠ some '"' ∧ Value.ofToken s = .text s) : Readable (.text s) := by
    obtain ⟨hne, hplain, hquote, htext⟩ := hs
    exact .bare hne (by simpa using hplain) hquote htext
  have hargs : ∀ v ∈ args, Readable v := by
    simp only [args, List.forall_mem_cons]
    refine ⟨.integer (-7), .spaced (List.any_eq_true.1 (by decide)) (by decide +kernel), hbare ?_,
      hbare ?_, List.forall_mem_nil _⟩
    · decide +kernel
    · decide +kernel
  exact ⟨hkeyword, by decide, hargs, by decide +kernel,
    parse_echoLine (by decide) hkeyword (by decide) hargs⟩

end SimpleBatch.Machine
