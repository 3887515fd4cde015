import SimpleBatch.Invocation
import SimpleBatch.Proofs.Escape
import SimpleBatch.Proofs.Token

/-!
# Console lines

How a list of values is written on a console (`Invocation.Written`): integers in
decimal, and texts between quotes or between hashes, with every backslash and
every hash in them doubled; commas between them, with any white space around.
Read as an invocation, such a line gives the same values back
(`Invocation.parse_written`).

The stages of reading are taken one after the other. Decoding leaves a line of
tokens, as the hashes around a text turn into quotes and the doubled characters
into single ones (`Spelled.decode_append`). The items of that line are the tokens
of the values (`Written.chain`), and each of them denotes its value.
-/

namespace SimpleBatch.Invocation

open Text Text.Escape

/-! ## Writing -/

/-- A value as it is typed. -/
inductive Spelled : Value → List Char → Prop
  | integer (n : Int32) : Spelled (.integer n) (decimalInt n.toInt)
  /-- A text between quotes. -/
  | quotes {s : String} : Line.Enclosable s.toList →
    Spelled (.text s) ('"' :: (doubled ['\\', '#'] s.toList ++ ['"']))
  /-- A text between hashes, of which the first would pair up with another one. -/
  | hashes {s : String} : Line.Enclosable s.toList → s ≠ "" → s.toList.head? ≠ some '#' →
    Spelled (.text s) ('#' :: (doubled ['\\', '#'] s.toList ++ ['#']))

/-- Values as they are typed in a line. -/
inductive Written : List Value → List Char → Prop
  | last {v : Value} {cs : List Char} : Spelled v cs → Written [v] cs
  | cons {v : Value} {vs : List Value} {cs before after rest : List Char} : Spelled v cs →
    (∀ c ∈ before, isSpace c) → (∀ c ∈ after, isSpace c) → Written vs rest →
    Written (v :: vs) (cs ++ (before ++ ',' :: (after ++ rest)))

/-! ## Reading -/

variable {v : Value} {vs : List Value} {cs tail rest space : List Char}

/-- A value in a line is decoded to its token. -/
theorem Spelled.decode_append (h : Spelled v cs) (hr : rest.head? ≠ some '#') :
    decode .invocation (cs ++ rest) = v.token ++ decode .invocation rest := by
  cases h with
  | integer n =>
    rw [Value.token_integer]
    exact decode_append_of_plain fun c hc => (plain_of_mem_decimalInt hc).2.2.2
  | quotes =>
    have hquote : ∀ rest, decode .invocation ('"' :: rest) = '"' :: decode .invocation rest :=
      fun rest => decode_cons_of_ne (by decide) (by decide)
    simp [hquote, decode_doubled_append, Value.token]
  | @hashes s _ hne hh =>
    -- Neither hash has another one after it to pair up with.
    have hopen : (doubled ['\\', '#'] s.toList ++ ('#' :: rest)).head? ≠ some '#' := by
      obtain ⟨c, cs, hs⟩ := List.exists_cons_of_ne_nil (mt String.toList_eq_nil_iff.1 hne)
      rw [List.head?_append, head?_doubled]
      rwa [hs] at hh ⊢
    simp [decode_hash hopen, decode_hash hr, decode_doubled_append, Value.token]

theorem Spelled.isToken (h : Spelled v cs) (he : Line.EndsItem tail rest) :
    Line.IsToken v.token tail := by
  cases h with
  | integer n => exact Line.isToken_integer n he
  | quotes henc => exact Line.isToken_quoted henc he
  | hashes henc => exact Line.isToken_quoted henc he

theorem Spelled.ofToken_token (h : Spelled v cs) : Value.ofToken (String.ofList v.token) = v := by
  cases h with
  | integer n => exact Value.ofToken_integer n
  | quotes => exact Value.ofToken_text _
  | hashes => exact Value.ofToken_text _

theorem plain_of_isSpace {c : Char} (h : isSpace c) : c ≠ '\\' ∧ c ≠ '#' := by
  constructor <;> rintro rfl <;> exact absurd h (by decide)

/-- The items of a decoded line are the tokens of its values. -/
theorem Written.chain (h : Written vs cs) (hspace : ∀ c ∈ space, isSpace c) :
    Line.Chain (space ++ decode .invocation cs) (vs.map Value.token) [] := by
  -- The white space after a comma belongs to the next item, so the induction
  -- carries some in front of the line.
  induction h generalizing space with
  | @last v cs h =>
    have hhead : ([] : List Char).head? ≠ some '#' := by decide
    have hd : decode .invocation cs = v.token ++ [] := by
      simpa [decode] using h.decode_append hhead
    rw [hd]
    exact .cons (.mk hspace (h.isToken .nil) .nil) .nil
  | @cons v vs cs before after rest h hbefore hafter _ ih =>
    have hhead : (before ++ ',' :: (after ++ rest)).head? ≠ some '#' :=
      fun hc => absurd ((Line.EndsItem.comma hbefore).head? '#' hc) (by decide)
    have hplain : ∀ c ∈ before ++ ',' :: after, c ≠ '\\' ∧ c ≠ '#' := by
      intro c hc
      rcases List.mem_append.1 hc with hc | hc
      · exact plain_of_isSpace (hbefore c hc)
      rcases List.mem_cons.1 hc with rfl | hc
      · decide
      · exact plain_of_isSpace (hafter c hc)
    have hd : decode .invocation ((before ++ ',' :: after) ++ rest) =
        (before ++ ',' :: after) ++ decode .invocation rest := decode_append_of_plain hplain
    simp only [List.append_assoc, List.cons_append] at hd
    rw [h.decode_append hhead, hd]
    exact .cons (.mk hspace (h.isToken (.comma hbefore)) (.comma hbefore)) (ih hafter)

theorem Written.ofToken_token (h : Written vs cs) :
    ∀ v ∈ vs, Value.ofToken (String.ofList v.token) = v := by
  induction h with
  | last h => simpa using h.ofToken_token
  | cons h _ _ _ ih => exact List.forall_mem_cons.2 ⟨h.ofToken_token, ih⟩

/-- Values written in a console line are read back from it.

    Let a line hold the name of a script and at most nine arguments, integers and
    texts, in none of which a quote stands before white space and a comma. Its
    values are those that were written, in their order and of their kinds, even
    where a text looks like a number; and the name is the first text. -/
theorem parse_written {name : String} {args : List Value} {line : String}
    (hl : args.length ≤ 9) (h : Written (.text name :: args) line.toList) :
    (parse line).values = .text name :: args ∧ (parse line).name = name := by
  have hlast : ∀ token rest, ¬Line.IsItem [] token rest := fun token rest hi => by
    simpa using hi.length_lt
  have hchain : Line.Chain (decode .invocation line.toList) _ [] :=
    h.chain (List.forall_mem_nil _)
  have hitems := hchain.items_eq hlast 10
  have hlength : ((Value.text name :: args).map Value.token).length ≤ 10 := by
    rw [List.length_map, List.length_cons]
    omega
  rw [List.take_of_length_le hlength] at hitems
  have hargs : args.map (fun v => Value.ofToken (String.ofList v.token)) = args :=
    (List.map_congr_left fun v hv => h.ofToken_token v (List.mem_cons_of_mem _ hv)).trans
      (List.map_id' args)
  have hparse : parse line = ⟨name, args⟩ := by
    simp only [parse, Line.split, String.toList_ofList, maxArgs, hitems, List.map_cons,
      List.map_map, Function.comp_def, Value.unquote_token, hargs]
  rw [hparse]
  exact ⟨rfl, rfl⟩

/-- A line with quotes, commas, hashes and a backslash in its texts, of which one
    is a numeral and one is empty. -/
theorem parse_written_mixed :
    let line := "#say \"hi\" now, ##1 \\\\# ,\t\"42\",-7 , \"##\",\"\""
    let args : List Value := [.text "42", .integer (-7), .text "#", .text ""]
    args.length ≤ 9 ∧ Written (.text "say \"hi\" now, #1 \\" :: args) line.toList ∧
      (parse line).values = .text "say \"hi\" now, #1 \\" :: args ∧
      (parse line).name = "say \"hi\" now, #1 \\" := by
  intro line args
  have hline : line.toList =
      '#' :: (doubled ['\\', '#'] "say \"hi\" now, #1 \\".toList ++ ['#']) ++
      ([' '] ++ ',' :: (['\t'] ++
      ('"' :: (doubled ['\\', '#'] "42".toList ++ ['"']) ++ ([] ++ ',' :: ([] ++
      (decimalInt (-7 : Int32).toInt ++ ([' '] ++ ',' :: ([' '] ++
      ('"' :: (doubled ['\\', '#'] "#".toList ++ ['"']) ++ ([] ++ ',' :: ([] ++
      '"' :: (doubled ['\\', '#'] "".toList ++ ['"'])))))))))))) := by
    decide +kernel
  have hnone : ∀ c ∈ ([] : List Char), isSpace c := List.forall_mem_nil _
  have hblank : ∀ c ∈ [' '], isSpace c := List.forall_mem_singleton.2 rfl
  have htab : ∀ c ∈ ['\t'], isSpace c := List.forall_mem_singleton.2 rfl
  have h : Written (.text "say \"hi\" now, #1 \\" :: args) line.toList := by
    rw [hline]
    refine .cons (.hashes ?_ ?_ ?_) hblank htab ?_
    iterate 3 decide +kernel
    refine .cons (.quotes (by decide +kernel)) hnone hnone ?_
    refine .cons (.integer (-7)) hblank hblank ?_
    refine .cons (.quotes (by decide +kernel)) hnone hnone ?_
    exact .last (.quotes (by decide +kernel))
  exact ⟨by decide, h, parse_written (by decide) h⟩

end SimpleBatch.Invocation
