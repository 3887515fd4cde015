import SimpleBatch.Proofs.Template

/-!
# Native and composite templates

A template is scanned once, whichever way it is replaced: the scan meets
characters that stand for themselves and references, and drops what is malformed
at the end (`Piece.Scan`). It is described by rules, of which exactly one applies to
every text (`Piece.parse_iff`), also to a text that nobody would write.

So the two ways of replacing can differ only in what they make of the pieces
(`Memory.resolve_modes`). They fail together, since both look up every reference.
And if the scan met one reference and nothing else, the native result is the value
referred to, of which the composite result is the text; otherwise both results are
the same text.
-/

namespace SimpleBatch

open Text

/-! ## Scanning -/

namespace Piece

/-- The pieces that a scan of a text meets. -/
inductive Scan : List Char → List Piece → Prop
  | nil : Scan [] []
  /-- A percent sign at the end is dropped. -/
  | trailing : Scan ['%'] []
  /-- A name without an end is dropped, together with the rest. -/
  | unterminated {c : Char} {cs : List Char} : c ≠ '%' → ¬c.isDigit → '%' ∉ cs →
    Scan ('%' :: c :: cs) []
  /-- A character that stands for itself. -/
  | plain {c : Char} {rest : List Char} {pieces : List Piece} : c ≠ '%' → Scan rest pieces →
    Scan (c :: rest) (.literal c :: pieces)
  /-- Two percent signs stand for one. -/
  | percents {rest : List Char} {pieces : List Piece} : Scan rest pieces →
    Scan ('%' :: '%' :: rest) (.literal '%' :: pieces)
  | reference {r : Reference} {rest : List Char} {pieces : List Piece} : r.Writable →
    Scan rest pieces → Scan (r.write ++ rest) (.reference r :: pieces)

variable {c : Char} {cs : List Char} {pieces : List Piece}

theorem parse_unterminated (hc : c ≠ '%') (hd : ¬c.isDigit) (hcs : '%' ∉ cs) :
    parse ('%' :: c :: cs) = [] := by
  have hdrop : cs.dropWhile (· ≠ '%') = [] := by
    refine List.dropWhile_eq_nil_iff.2 fun d hd => ?_
    simpa using ne_of_mem_of_not_mem hd hcs
  rw [parse, if_neg hc, if_neg hd, hdrop]

theorem Scan.parse_eq (h : Scan cs pieces) : parse cs = pieces := by
  induction h with
  | nil => exact parse.eq_1
  | trailing => exact parse.eq_2
  | unterminated hc hd hcs => exact parse_unterminated hc hd hcs
  | plain hc _ ih => rw [parse_cons_of_ne hc, ih]
  | percents _ ih => rw [parse_percents, ih]
  | reference hr _ ih => rw [parse_reference_append hr, ih]

/-- A digit after a percent sign is a reference as it is written. -/
theorem argument_of_isDigit (hd : c.isDigit) :
    (Reference.argument (numeralValue 10 [c])).Writable ∧
      (Reference.argument (numeralValue 10 [c])).write = ['%', c] :=
  ⟨digit_lt hd, by rw [Reference.write, decimal_digit hd]⟩

/-- What stands between percent signs is a reference as it is written. -/
theorem ofName_of_notMem (hc : c ≠ '%') (hd : ¬c.isDigit) (hcs : '%' ∉ cs) :
    (Reference.ofName (c :: cs)).Writable ∧
      (Reference.ofName (c :: cs)).write = '%' :: c :: (cs ++ ['%']) := by
  by_cases hamp : c = '&'
  · subst hamp
    simp [Reference.ofName, Reference.Writable, Reference.write, hcs]
  · rw [ofName_of_ne hamp]
    simp_all [Reference.Writable, Reference.write, Ne.symm hc]

theorem scan_parse (cs : List Char) : Scan cs (parse cs) := by
  fun_induction parse cs with
  | case1 => exact .nil
  | case2 => exact .trailing
  | case3 rest ih => exact .percents ih
  | case4 c rest hc hd ih =>
    obtain ⟨hr, hw⟩ := argument_of_isDigit hd
    simpa [hw] using Scan.reference hr ih
  | case5 c rest hc hd hdrop =>
    refine .unterminated hc hd fun hmem => ?_
    simpa using List.dropWhile_eq_nil_iff.1 hdrop '%' hmem
  | case6 c rest hc hd d tail hdrop ih =>
    -- The name ends before the next percent sign, and there is one.
    have hrun : '%' ∉ rest.takeWhile (· ≠ '%') := by
      intro hmem
      simpa using List.mem_takeWhile_imp hmem
    obtain rfl : d = '%' := by
      have hnot : ¬decide (d ≠ '%') := not_head?_dropWhile d (by rw [hdrop]; rfl)
      simpa using hnot
    have hrest : rest.takeWhile (· ≠ '%') ++ '%' :: tail = rest := by
      rw [← hdrop, List.takeWhile_append_dropWhile]
    obtain ⟨hr, hw⟩ := ofName_of_notMem hc hd hrun
    have hscan := Scan.reference hr ih
    rw [hdrop, List.tail_cons] at hscan ⊢
    rwa [hw, List.cons_append, List.cons_append, List.append_assoc, List.singleton_append,
      hrest] at hscan
  | case7 c rest hlast hnext ih =>
    refine .plain ?_ ih
    rintro rfl
    cases rest with
    | nil => exact hlast rfl rfl
    | cons d rest => exact hnext d rest rfl rfl

/-- Every text is scanned, and in one way only. -/
theorem parse_iff : parse cs = pieces ↔ Scan cs pieces :=
  ⟨fun h => h ▸ scan_parse cs, Scan.parse_eq⟩

theorem Scan.writable {r : Reference} (h : Scan cs (.reference r :: pieces)) : r.Writable := by
  cases h with
  | reference hr _ => exact hr

end Piece

/-! ## Replacing -/

namespace Memory

variable {m : Memory} {s : String} {fault : Fault}

theorem dereference_eq_ok {r : Reference} {v : Value} (hr : r.Writable) :
    m.dereference r = .ok v ↔ m.referent? r = some v := by
  refine ⟨fun h => ?_, dereference_of_some⟩
  cases r with
  | argument index =>
    -- An argument has a slot, given or not, so there is always a value.
    obtain ⟨w, hw⟩ : ∃ w, m.fill? (.reference (.argument index) hr) = some w :=
      exists_fill? nofun
    have hd : m.dereference (.argument index) = .ok w := dereference_of_some hw
    cases hd.symm.trans h
    exact hw
  | value name | address name =>
    cases hn : m.lookup? name with
    | none => simp [dereference, slotOf, hn] at h
    | some slot => simpa [dereference, referent?, slotOf, hn] using h

/-- A piece can be written out unless it is a name without a slot. -/
theorem undeclared_of_expand {piece : Piece} (h : m.expand piece = .error fault) :
    ∃ name, m.lookup? name = none ∧ fault = .undeclared name := by
  cases piece with
  | literal c => cases h
  | reference r =>
    cases r with
    | argument index => cases h
    | value name | address name =>
      cases hn : m.lookup? name with
      | none =>
        refine ⟨name, hn, ?_⟩
        simpa [expand, dereference, slotOf, hn] using h.symm
      | some slot => simp [expand, dereference, slotOf, hn] at h

theorem undeclared_of_mapM_expand {pieces : List Piece}
    (h : pieces.mapM m.expand = .error fault) :
    ∃ name, m.lookup? name = none ∧ fault = .undeclared name := by
  induction pieces with
  | nil => cases h
  | cons piece pieces ih =>
    rw [List.mapM_cons] at h
    rcases Fault.bind_eq_error.1 h with he | ⟨text, -, h⟩
    · exact undeclared_of_expand he
    · rcases Fault.bind_eq_error.1 h with hp | ⟨texts, -, h⟩
      · exact ih hp
      · cases h

/-- If all pieces of a template can be written out, it is replaced, and by a value
    that is written like them, whichever way. -/
theorem substitute_of_expand (mode : Substitution) {texts : List String}
    (h : (Piece.parse s.toList).mapM m.expand = .ok texts) :
    ∃ v, m.substitute mode s = .ok v ∧ v.render = String.join texts := by
  by_cases hr : ∃ r, mode = .native ∧ Piece.parse s.toList = [.reference r]
  · obtain ⟨r, rfl, hr⟩ := hr
    rw [substitute_native_reference hr]
    rw [hr] at h
    cases hd : m.dereference r with
    | error fault => simp [expand, hd] at h
    | ok v =>
      refine ⟨v, rfl, ?_⟩
      obtain rfl : [v.render] = texts := by simpa [expand, hd] using h
      simp
  · rw [substitute_of_ne fun hm r hp => hr ⟨r, hm, hp⟩, interpolate, h]
    exact ⟨_, rfl, rfl⟩

theorem substitute_eq_error {mode : Substitution} : m.substitute mode s = .error fault ↔
    (Piece.parse s.toList).mapM m.expand = .error fault := by
  refine ⟨fun h => ?_, substitute_of_expand_error⟩
  cases he : (Piece.parse s.toList).mapM m.expand with
  | error fault' =>
    cases (substitute_of_expand_error he).symm.trans h
    rfl
  | ok texts =>
    obtain ⟨v, hv, -⟩ := substitute_of_expand mode he
    cases hv.symm.trans h

theorem render_eq_of_substitute {a b : Value} (ha : m.substitute .native s = .ok a)
    (hb : m.substitute .composite s = .ok b) : a.render = b.render := by
  cases he : (Piece.parse s.toList).mapM m.expand with
  | error fault => cases (substitute_of_expand_error he).symm.trans ha
  | ok texts =>
    obtain ⟨a', ha', hrender⟩ := substitute_of_expand .native he
    obtain ⟨b', hb', hrender'⟩ := substitute_of_expand .composite he
    cases ha'.symm.trans ha
    cases hb'.symm.trans hb
    rw [hrender, hrender']

theorem exists_text_of_composite {b : Value} (h : m.substitute .composite s = .ok b) :
    ∃ t, b = .text t := by
  have hne : Substitution.composite ≠ .native := nofun
  rw [substitute_of_ne fun hm => absurd hm hne] at h
  obtain ⟨texts, -, rfl⟩ := Fault.map_eq_ok.1 h
  exact ⟨_, rfl⟩

/-- A text without percent signs stands for itself. -/
theorem substitute_of_notMem (mode : Substitution) (h : '%' ∉ s.toList) :
    m.substitute mode s = .ok (.text s) := by
  have hdoubled : doubled ['%'] s.toList = s.toList := by
    refine doubled_of_forall_notMem fun c hc => ?_
    simpa using ne_of_mem_of_not_mem hc h
  have hread := m.resolve_doubled mode s
  rwa [hdoubled, String.ofList_toList] at hread

theorem substitute_composite_reference {r : Reference} {v : Value}
    (hr : Piece.parse s.toList = [.reference r]) (hv : m.dereference r = .ok v) :
    m.substitute .composite s = .ok (.text v.render) := by
  have hexpand : (Piece.parse s.toList).mapM m.expand = .ok [v.render] := by
    simp [hr, expand, hv]
  obtain ⟨b, hb, hrender⟩ := substitute_of_expand .composite hexpand
  obtain ⟨t, rfl⟩ := exists_text_of_composite hb
  obtain rfl : t = v.render := hrender.trans (by simp)
  exact hb

/-- Only one reference and nothing else makes a difference between the two ways. -/
theorem exists_reference_of_ne (h : m.substitute .native s ≠ m.substitute .composite s) :
    ∃ r value, Piece.parse s.toList = [.reference r] ∧ m.dereference r = .ok value := by
  by_cases hr : ∃ r, Piece.parse s.toList = [.reference r]
  · obtain ⟨r, hr⟩ := hr
    cases hd : m.dereference r with
    | error fault =>
      -- Then both fail, and in the same way.
      have hnative : m.substitute .native s = .error fault := by
        rw [substitute_native_reference hr, hd]
      exact absurd (hnative.trans (substitute_eq_error.2 (substitute_eq_error.1 hnative)).symm) h
    | ok value => exact ⟨r, value, hr, hd⟩
  · have hsame : ∀ mode, m.substitute mode s = m.interpolate (Piece.parse s.toList) :=
      fun mode => substitute_of_ne fun _ r hp => hr ⟨r, hp⟩
    exact absurd ((hsame .native).trans (hsame .composite).symm) h

/-- What the two ways of replacing have in common, and where they differ.

    Both fail for the same templates, with the same name that has no slot. If they
    do not fail, their results are written the same; the composite one of a text is
    a text. Both leave numbers alone, and texts without percent signs. They differ
    only if the scan met one reference and nothing else: the native result is then
    the value referred to, whatever was dropped after the reference, and the
    composite result is its text. -/
theorem resolve_modes (m : Memory) (v : Value) :
    (∀ fault, m.resolve .native v = .error fault ↔ m.resolve .composite v = .error fault) ∧
    (∀ mode fault, m.resolve mode v = .error fault →
      ∃ name, m.lookup? name = none ∧ fault = .undeclared name) ∧
    (∀ a b, m.resolve .native v = .ok a → m.resolve .composite v = .ok b →
      a.render = b.render) ∧
    (∀ s b, v = .text s → m.resolve .composite v = .ok b → ∃ t, b = .text t) ∧
    ((∀ s, v = .text s → '%' ∉ s.toList) → ∀ mode, m.resolve mode v = .ok v) ∧
    (m.resolve .native v ≠ m.resolve .composite v → ∃ s r, v = .text s ∧
      Piece.Scan s.toList [.reference r] ∧ ∃ value, m.referent? r = some value ∧
        m.resolve .native v = .ok value ∧ m.resolve .composite v = .ok (.text value.render)) ∧
    ∀ s r, v = .text s → Piece.Scan s.toList [.reference r] →
      ∀ value, m.resolve .native v = .ok value ↔ m.referent? r = some value := by
  cases v with
  | integer n | float x => simp [resolve]
  | text s =>
    simp only [resolve]
    refine ⟨fun fault => ?_, fun mode fault h => ?_, fun a b ha hb => ?_, fun s' b _ hb => ?_,
      fun h mode => ?_, fun h => ?_, fun s' r hs hr value => ?_⟩
    · rw [substitute_eq_error, substitute_eq_error]
    · exact undeclared_of_mapM_expand (substitute_eq_error.1 h)
    · exact render_eq_of_substitute ha hb
    · exact exists_text_of_composite hb
    · exact substitute_of_notMem mode (h s rfl)
    · obtain ⟨r, value, hr, hv⟩ := exists_reference_of_ne h
      have hscan := Piece.parse_iff.1 hr
      exact ⟨s, r, rfl, hscan, value, (dereference_eq_ok hscan.writable).1 hv,
        (substitute_native_reference hr).trans hv, substitute_composite_reference hr hv⟩
    · cases hs
      rw [substitute_native_reference hr.parse_eq]
      exact dereference_eq_ok hr.writable

/-- A number that is referred to, with a name after it that has no end. -/
theorem resolve_modes_unterminated :
    let m := Memory.start [.text "T", .integer 7] {}
    Piece.Scan "%1%NAME".toList [.reference (.argument 1)] ∧
      m.referent? (.argument 1) = some (.integer 7) ∧
      m.resolve .native (.text "%1%NAME") = .ok (.integer 7) ∧
      ∃ b, m.resolve .composite (.text "%1%NAME") = .ok b ∧ b.render = "7" := by
  intro m
  have hscan : Piece.Scan "%1%NAME".toList [.reference (.argument 1)] :=
    .reference (by decide : (Reference.argument 1).Writable)
      (.unterminated (by decide) (by decide) (by decide))
  have hvalue : m.referent? (.argument 1) = some (.integer 7) := by decide +kernel
  obtain ⟨hfault, -, hrender, -, -, -, href⟩ := resolve_modes m (.text "%1%NAME")
  have hnative : m.resolve .native (.text "%1%NAME") = .ok (.integer 7) :=
    (href _ _ rfl hscan _).2 hvalue
  cases hb : m.resolve .composite (.text "%1%NAME") with
  | error fault => cases hnative.symm.trans ((hfault fault).2 hb)
  | ok b => exact ⟨hscan, hvalue, hnative, b, rfl, (hrender _ _ hnative hb).symm.trans (by decide)⟩

end Memory

end SimpleBatch
