import SimpleBatch.Proofs.Text
import SimpleBatch.Text.Escape

/-!
# Reading escape sequences back

One lemma for each way in which the walk of `decode` takes a character or a
sequence, and what follows from them:

* a text in which every backslash and every `#` is doubled stands for itself on a
  console line, whatever follows it (`decode_doubled_append`);
* no text stands for a longer one, and the texts that stand for themselves are
  those without anything to decode (`decode_eq_self`).
-/

namespace SimpleBatch.Text.Escape

variable {mode : Mode} {c : Char} {rest : List Char}

theorem decode_cons_of_ne (hb : c ≠ '\\') (hh : ¬(c = '#' ∧ mode = .invocation)) :
    decode mode (c :: rest) = c :: decode mode rest := by
  rw [decode]
  · rw [if_neg hh]
  · rintro rfl
    contradiction
  · rintro d rest' rfl
    contradiction

theorem decode_of_sequence {letter : Char} {used : Nat}
    (h : sequence mode letter rest = ([c], used)) :
    decode mode ('\\' :: letter :: rest) = c :: decode mode (rest.drop used) := by
  rw [decode, h]
  rfl

theorem decode_backslash : decode mode ('\\' :: '\\' :: rest) = '\\' :: decode mode rest := by
  have hs : sequence mode '\\' rest = (['\\'], 0) := rfl
  exact decode_of_sequence hs

theorem decode_hash_eq : decode .invocation ('#' :: rest) =
    if rest.head? = some '#' then '#' :: decode .invocation rest.tail
    else '"' :: decode .invocation rest := by
  rw [decode]
  · rw [if_pos ⟨rfl, rfl⟩]
  · intro h
    contradiction
  · intro d rest' h
    contradiction

/-- Two hashes are a pair, also where more of them follow. -/
theorem decode_hashes :
    decode .invocation ('#' :: '#' :: rest) = '#' :: decode .invocation rest := by
  rw [decode_hash_eq, if_pos List.head?_cons, List.tail_cons]

theorem decode_hash (h : rest.head? ≠ some '#') :
    decode .invocation ('#' :: rest) = '"' :: decode .invocation rest := by
  rw [decode_hash_eq, if_neg h]

/-- A text without backslashes and hashes stands for itself. -/
theorem decode_append_of_plain {cs : List Char} (h : ∀ c ∈ cs, c ≠ '\\' ∧ c ≠ '#') :
    decode mode (cs ++ rest) = cs ++ decode mode rest := by
  induction cs with
  | nil => rfl
  | cons c cs ih =>
    obtain ⟨hb, hh⟩ := h c List.mem_cons_self
    rw [List.cons_append, decode_cons_of_ne hb fun hc => hh hc.1,
      ih fun d hd => h d (List.mem_cons_of_mem _ hd), List.cons_append]

/-- Doubled backslashes and hashes stand for themselves, whatever follows. -/
theorem decode_doubled_append (cs : List Char) :
    decode .invocation (doubled ['\\', '#'] cs ++ rest) = cs ++ decode .invocation rest := by
  induction cs with
  | nil => rfl
  | cons c cs ih =>
    rw [doubled_cons, List.append_assoc]
    by_cases hb : c = '\\'
    · subst hb
      exact decode_backslash.trans (congrArg _ ih)
    by_cases hh : c = '#'
    · subst hh
      exact decode_hashes.trans (congrArg _ ih)
    · rw [if_neg (by simp [hb, hh])]
      exact (decode_cons_of_ne hb fun h => hh h.1).trans (congrArg _ ih)

/-! ## Texts that stand for themselves -/

/-- A sequence stands for one character, or for nothing. -/
theorem length_sequence_le (mode : Mode) (c : Char) (rest : List Char) :
    (sequence mode c rest).1.length ≤ 1 := by
  unfold sequence
  split_ifs
  · exact Nat.le_refl 1
  · exact Nat.le_refl 1
  · split
    · exact Nat.le_refl 1
    · exact Nat.zero_le 1
  · exact Nat.le_refl 1
  · exact Nat.le_refl 1

theorem length_decode_le (mode : Mode) (cs : List Char) :
    (decode mode cs).length ≤ cs.length := by
  fun_induction decode mode cs with
  | case1 => exact Nat.le_refl _
  | case2 => exact Nat.le_refl _
  | case3 c rest ih =>
    have hs := length_sequence_le mode c rest
    simp only [List.length_append, List.length_cons, List.length_drop] at ih ⊢
    omega
  | case4 c rest _ _ _ _ ih =>
    simp only [List.length_cons, List.length_tail] at ih ⊢
    omega
  | case5 c rest _ _ _ _ ih => exact Nat.succ_le_succ ih
  | case6 c rest _ _ _ ih => exact Nat.succ_le_succ ih

/-- A backslash is gone with its sequence, which stands for one character at most. -/
theorem length_decode_sequence_lt (mode : Mode) (c : Char) (rest : List Char) :
    (decode mode ('\\' :: c :: rest)).length < ('\\' :: c :: rest).length := by
  have hs := length_sequence_le mode c rest
  have hr := length_decode_le mode (rest.drop (sequence mode c rest).2)
  rw [decode]
  simp only [List.length_append, List.length_cons, List.length_drop] at hr ⊢
  omega

/-- On a console line a hash is the first of two, of which one is gone, or becomes
    a quote. -/
theorem decode_hash_ne (rest : List Char) : decode .invocation ('#' :: rest) ≠ '#' :: rest := by
  intro h
  rw [decode_hash_eq] at h
  split at h
  · next hrest =>
    obtain ⟨rest, rfl⟩ := List.head?_eq_some_iff.1 hrest
    have heq : decode .invocation rest = '#' :: rest := (List.cons.inj h).2
    have hle := length_decode_le .invocation rest
    rw [heq] at hle
    exact Nat.not_succ_le_self _ hle
  · exact absurd (List.cons.inj h).1 (by decide)

/-- A text never stands for a longer one. It stands for itself if, and only if, no
    backslash in it comes before another character and, on a console line, there is
    no hash in it. -/
theorem decode_eq_self (mode : Mode) (cs : List Char) :
    (decode mode cs).length ≤ cs.length ∧
      (decode mode cs = cs ↔ '\\' ∉ cs.dropLast ∧ (mode = .invocation → '#' ∉ cs)) := by
  refine ⟨length_decode_le mode cs, ?_⟩
  induction cs with
  | nil => simp [decode]
  | cons c rest ih =>
    by_cases hb : c = '\\'
    · subst hb
      cases rest with
      | nil => simp [decode]
      | cons d rest =>
        -- No combination of what is dropped and decoded makes up for the backslash.
        refine iff_of_false (fun h => ?_) fun h => h.1 List.mem_cons_self
        have hlt := length_decode_sequence_lt mode d rest
        rw [h] at hlt
        exact Nat.lt_irrefl _ hlt
    by_cases hh : c = '#' ∧ mode = .invocation
    · obtain ⟨rfl, rfl⟩ := hh
      exact iff_of_false (decode_hash_ne rest) fun h => h.2 rfl List.mem_cons_self
    · have hdrop : '\\' ∉ (c :: rest).dropLast ↔ '\\' ∉ rest.dropLast := by
        cases rest <;> simp [Ne.symm hb]
      have hhash : (mode = .invocation → '#' ∉ c :: rest) ↔ (mode = .invocation → '#' ∉ rest) := by
        refine forall_congr' fun hm => ?_
        have hc : '#' ≠ c := fun h => hh ⟨h.symm, hm⟩
        rw [List.mem_cons, or_iff_right hc]
      rw [decode_cons_of_ne hb hh, List.cons.injEq, ih, hdrop, hhash]
      exact and_iff_right rfl

end SimpleBatch.Text.Escape
