import SimpleBatch.Proofs.Computation
import SimpleBatch.Proofs.Text
import SimpleBatch.Template

/-!
# Templates as lists of segments

A template can be put together from *segments*: texts, in which every percent
sign is doubled, and references (`Segment`). What it is replaced by is told by
its segments (`Memory.resolve_segments`): a text stands for itself and a reference
for what it refers to, which is never looked into, whatever it contains.

The reader cuts a template back into its segments (`Piece.parse_write`), so the
rest is about lists: references are looked up from left to right, and the first
name without a slot is the one that is reported.
-/

namespace SimpleBatch

open Text

/-! ## Writing -/

/-- Whether a reference can be written in a template. -/
def Reference.Writable : Reference → Prop
  | argument index => index < 10
  | value name => name ≠ "" ∧ '%' ∉ name.toList ∧ ∀ c ∈ name.toList.head?, c ≠ '&' ∧ ¬c.isDigit
  | address name => '%' ∉ name.toList

instance : DecidablePred Reference.Writable
  | .argument index => inferInstanceAs (Decidable (index < 10))
  | .value name => inferInstanceAs (Decidable (name ≠ "" ∧ '%' ∉ name.toList ∧
      ∀ c ∈ name.toList.head?, c ≠ '&' ∧ ¬c.isDigit))
  | .address name => inferInstanceAs (Decidable ('%' ∉ name.toList))

/-- A reference as it is written in a template. -/
def Reference.write : Reference → List Char
  | argument index => '%' :: decimal index
  | value name => '%' :: (name.toList ++ ['%'])
  | address name => '%' :: '&' :: (name.toList ++ ['%'])

/-- The name that a reference looks up. -/
def Reference.name? : Reference → Option String
  | argument _ => none
  | value name => some name
  | address name => some name

/-- A segment of a template. -/
inductive Segment where
  /-- A text that stands for itself. -/
  | literal (text : String)
  /-- A reference. -/
  | reference (r : Reference) (h : r.Writable)

namespace Segment

/-- A segment as it is written. -/
def write : Segment → List Char
  | literal text => doubled ['%'] text.toList
  | reference r _ => r.write

/-- The name that a segment looks up. -/
def name? : Segment → Option String
  | literal _ => none
  | reference r _ => r.name?

/-- Whether nothing is written for a segment. -/
def isEmpty : Segment → Bool
  | literal text => text = ""
  | reference _ _ => false

/-- The template that segments make up. -/
def template (t : List Segment) : Value :=
  .text (String.ofList (t.flatMap write))

/-- The pieces that a segment is read as. -/
def pieces : Segment → List Piece
  | literal text => text.toList.map .literal
  | reference r _ => [.reference r]

theorem pieces_eq_nil {s : Segment} : s.pieces = [] ↔ s.isEmpty := by
  cases s <;> simp [pieces, isEmpty]

theorem flatMap_pieces_filter (t : List Segment) :
    (t.filter (!·.isEmpty)).flatMap pieces = t.flatMap pieces := by
  induction t with
  | nil => rfl
  | cons s t ih =>
    cases hs : s.isEmpty with
    | true => simp [hs, ih, pieces_eq_nil.2 hs]
    | false => simp [hs, ih]

/-- Only a single reference is read as one. -/
theorem exists_of_flatMap_pieces {t : List Segment} {r : Reference}
    (h : t.flatMap pieces = [.reference r]) : ∃ hr, t.filter (!·.isEmpty) = [.reference r hr] := by
  rw [← flatMap_pieces_filter] at h
  have hne : ∀ s ∈ t.filter (!·.isEmpty), s.pieces ≠ [] := by
    intro s hs hp
    simp [pieces_eq_nil.1 hp] at hs
  generalize t.filter (!·.isEmpty) = shown at h hne
  cases shown with
  | nil => simp at h
  | cons s shown =>
    obtain ⟨hs, hne⟩ := List.forall_mem_cons.1 hne
    rw [List.flatMap_cons, List.append_eq_singleton_iff] at h
    rcases h with ⟨hp, -⟩ | ⟨hp, hshown⟩
    · contradiction
    obtain rfl : shown = [] := by
      refine List.eq_nil_iff_forall_not_mem.2 fun s' hs' => hne s' hs' ?_
      exact List.flatMap_eq_nil_iff.1 hshown s' hs'
    cases s with
    | literal text => simp [pieces] at hp
    | reference r' hr =>
      cases hp
      exact ⟨hr, rfl⟩

end Segment

/-! ## Reading -/

namespace Piece

variable {c : Char} {cs rest : List Char}

theorem parse_cons_of_ne (h : c ≠ '%') : parse (c :: rest) = literal c :: parse rest := by
  rw [parse]
  · rintro rfl
    contradiction
  · rintro d rest' rfl
    contradiction

theorem parse_percents : parse ('%' :: '%' :: rest) = literal '%' :: parse rest := by
  rw [parse, if_pos rfl]

theorem parse_digit (h : c.isDigit) :
    parse ('%' :: c :: rest) = reference (.argument (numeralValue 10 [c])) :: parse rest := by
  have hc : c ≠ '%' := by
    rintro rfl
    exact absurd h (by decide)
  rw [parse, if_neg hc, if_pos h]

/-- A name ends at the next percent sign. -/
theorem parse_name (hc : c ≠ '%') (hd : ¬c.isDigit) (hcs : '%' ∉ cs) :
    parse ('%' :: c :: (cs ++ '%' :: rest)) = reference (.ofName (c :: cs)) :: parse rest := by
  have hrun : ∀ d ∈ cs, decide (d ≠ '%') := by
    intro d hd
    simpa using ne_of_mem_of_not_mem hd hcs
  obtain ⟨htake, hdrop⟩ : (cs ++ '%' :: rest).takeWhile (· ≠ '%') = cs ∧
      (cs ++ '%' :: rest).dropWhile (· ≠ '%') = '%' :: rest := span_append hrun (by simp)
  rw [parse, if_neg hc, if_neg hd, hdrop, htake]
  rfl

theorem parse_doubled_append :
    parse (doubled ['%'] cs ++ rest) = cs.map literal ++ parse rest := by
  induction cs with
  | nil => rfl
  | cons c cs ih =>
    rw [doubled_cons, List.append_assoc]
    by_cases hc : c = '%'
    · subst hc
      exact parse_percents.trans (congrArg _ ih)
    · rw [if_neg (by simpa using hc)]
      exact (parse_cons_of_ne hc).trans (congrArg _ ih)

theorem ofName_of_ne (h : c ≠ '&') :
    Reference.ofName (c :: cs) = .value (String.ofList (c :: cs)) := by
  unfold Reference.ofName
  split
  · next heq => exact absurd (List.cons.inj heq).1 h
  · rfl

theorem parse_reference_append {r : Reference} (h : r.Writable) :
    parse (r.write ++ rest) = reference r :: parse rest := by
  cases r with
  | argument index =>
    have hdigit : decimal index = [(Nat.digitChar index).toUpper] := by
      rw [decimal, numeral, Nat.toDigits_of_lt_base h, List.map_singleton]
    have hvalue := numeralValue_numeral (by decide) (by decide : 10 ≤ 16) index
    rw [← decimal, hdigit] at hvalue
    have hd : (Nat.digitChar index).toUpper.isDigit :=
      isDigit_of_mem_decimal (hdigit ▸ List.mem_singleton_self _)
    rw [Reference.write, hdigit, List.cons_append, List.singleton_append, parse_digit hd, hvalue]
  | value name =>
    obtain ⟨hne, hp, hhead⟩ := h
    obtain ⟨c, cs, hname⟩ := List.exists_cons_of_ne_nil (mt String.toList_eq_nil_iff.1 hne)
    rw [hname] at hp hhead
    obtain ⟨hamp, hd⟩ := hhead c rfl
    obtain ⟨hc, hcs⟩ := List.ne_and_not_mem_of_not_mem_cons hp
    have hof : Reference.ofName (c :: cs) = .value name := by
      rw [ofName_of_ne hamp, ← hname, String.ofList_toList]
    simpa [Reference.write, hname, hof] using parse_name (Ne.symm hc) hd hcs
  | address name =>
    have hof : Reference.ofName ('&' :: name.toList) = .address name := by
      simp [Reference.ofName]
    simpa [Reference.write, hof] using parse_name (by decide : '&' ≠ '%') (by decide) h

/-- A template is cut back into its segments. -/
theorem parse_write (t : List Segment) :
    parse (t.flatMap Segment.write) = t.flatMap Segment.pieces := by
  induction t with
  | nil => exact parse.eq_1
  | cons s t ih =>
    rw [List.flatMap_cons, List.flatMap_cons, ← ih]
    cases s with
    | literal text => exact parse_doubled_append
    | reference r h => exact parse_reference_append h

end Piece

/-! ## Replacing -/

namespace Memory

variable {m : Memory}

/-- What a reference refers to; nothing if its name has no slot. -/
def referent? (m : Memory) : Reference → Option Value
  | .argument index => m.get? index
  | .value name => (m.lookup? name).map m.read
  | .address name => (m.lookup? name).map fun slot => .integer (Int32.ofNat slot)

/-- The value that a segment is replaced by; nothing if its name has no slot. -/
def fill? (m : Memory) : Segment → Option Value
  | .literal text => some (.text text)
  | .reference r _ => m.referent? r

theorem dereference_of_some {r : Reference} {v : Value} (h : m.referent? r = some v) :
    m.dereference r = .ok v := by
  cases r with
  | argument index => simp_all [referent?, dereference, read]
  | value name | address name =>
    obtain ⟨slot, hslot, rfl⟩ := Option.map_eq_some_iff.1 h
    simp [dereference, slotOf, hslot]

theorem dereference_of_none {r : Reference} {name : String} (hr : r.name? = some name)
    (h : m.lookup? name = none) : m.dereference r = .error (.undeclared name) := by
  cases r with
  | argument index => cases hr
  | value name | address name =>
    cases hr
    simp [dereference, slotOf, h]

/-- A segment whose name, if it has one, has a slot is replaced by a value. -/
theorem exists_fill? {s : Segment} (h : ∀ name ∈ s.name?, (m.lookup? name).isSome) :
    ∃ v, m.fill? s = some v := by
  cases s with
  | literal text => exact ⟨_, rfl⟩
  | reference r hw =>
    cases r with
    | argument index =>
      have hlt : index < 107 := Nat.lt_trans hw (by decide)
      exact ⟨m.slots[index], by simp [fill?, referent?, get?, hlt]⟩
    | value name =>
      obtain ⟨slot, hslot⟩ := Option.isSome_iff_exists.1 (h name rfl)
      exact ⟨m.read slot, by simp [fill?, referent?, hslot]⟩
    | address name =>
      obtain ⟨slot, hslot⟩ := Option.isSome_iff_exists.1 (h name rfl)
      exact ⟨.integer (Int32.ofNat slot), by simp [fill?, referent?, hslot]⟩

/-- The texts of the pieces of a segment make up the text of its value. -/
theorem expand_pieces {s : Segment} {v : Value} (h : m.fill? s = some v) :
    ∃ texts, s.pieces.mapM m.expand = .ok texts ∧ String.join texts = v.render := by
  cases s with
  | literal text =>
    cases h
    refine ⟨text.toList.map String.singleton, ?_, ?_⟩
    · rw [Segment.pieces, List.mapM_map]
      exact List.mapM_pure
    · simp [← String.toList_inj, List.flatMap_map, Value.render]
  | reference r _ =>
    refine ⟨[v.render], ?_, by simp⟩
    simp [Segment.pieces, expand, dereference_of_some h]

/-- A template of which every segment is replaced. -/
theorem expand_segments {t : List Segment} {values : List Value}
    (h : t.mapM m.fill? = some values) :
    ∃ texts, (t.flatMap Segment.pieces).mapM m.expand = .ok texts ∧
      String.join texts = String.join (values.map Value.render) := by
  induction t generalizing values with
  | nil =>
    cases h
    exact ⟨[], rfl, rfl⟩
  | cons s t ih =>
    rw [List.mapM_cons] at h
    obtain ⟨v, hv, h⟩ := Option.bind_eq_some_iff.1 h
    obtain ⟨values, hvalues, h⟩ := Option.bind_eq_some_iff.1 h
    cases h
    obtain ⟨texts, htexts, hjoin⟩ := expand_pieces hv
    obtain ⟨texts', htexts', hjoin'⟩ := ih hvalues
    refine ⟨texts ++ texts', ?_, ?_⟩
    · rw [List.flatMap_cons, List.mapM_append, htexts, htexts']
      rfl
    · rw [String.join_append, hjoin, hjoin', List.map_cons, String.join_cons]

theorem expand_pieces_error {s : Segment} {name : String} (hs : s.name? = some name)
    (h : m.lookup? name = none) : s.pieces.mapM m.expand = .error (.undeclared name) := by
  cases s with
  | literal text => cases hs
  | reference r _ => simp [Segment.pieces, expand, dereference_of_none hs h]

/-- A template fails at the first name without a slot. -/
theorem expand_segments_error {t : List Segment} {before after : List String} {name : String}
    (hnames : t.filterMap Segment.name? = before ++ name :: after)
    (hbefore : ∀ n ∈ before, (m.lookup? n).isSome) (h : m.lookup? name = none) :
    (t.flatMap Segment.pieces).mapM m.expand = .error (.undeclared name) := by
  induction t generalizing before with
  | nil => simp at hnames
  | cons s t ih =>
    -- A segment that is replaced leaves the fault to the segments after it.
    have hskip : (∀ n ∈ s.name?, (m.lookup? n).isSome) →
        (t.flatMap Segment.pieces).mapM m.expand = .error (.undeclared name) →
        ((s :: t).flatMap Segment.pieces).mapM m.expand = .error (.undeclared name) := by
      intro hs ht
      obtain ⟨v, hv⟩ := exists_fill? hs
      obtain ⟨texts, htexts, -⟩ := expand_pieces hv
      rw [List.flatMap_cons, List.mapM_append, htexts, ht]
      rfl
    cases hs : s.name? with
    | none =>
      rw [List.filterMap_cons_none hs] at hnames
      exact hskip (by simp [hs]) (ih hnames hbefore)
    | some n =>
      rw [List.filterMap_cons_some hs] at hnames
      cases before with
      | nil =>
        obtain ⟨rfl, -⟩ := List.cons.inj hnames
        rw [List.flatMap_cons, List.mapM_append, expand_pieces_error hs h]
        rfl
      | cons b before =>
        obtain ⟨rfl, ht⟩ := List.cons.inj hnames
        obtain ⟨hn, hbefore⟩ := List.forall_mem_cons.1 hbefore
        exact hskip (by simpa [hs] using hn) (ih ht hbefore)

/-! ## Native and composite -/

theorem substitute_native_reference {s : String} {r : Reference}
    (h : Piece.parse s.toList = [.reference r]) : m.substitute .native s = m.dereference r := by
  simp only [substitute, h]

theorem substitute_of_ne {mode : Substitution} {s : String}
    (h : mode = .native → ∀ r, Piece.parse s.toList ≠ [.reference r]) :
    m.substitute mode s = m.interpolate (Piece.parse s.toList) := by
  unfold substitute
  split
  · next r hr => exact absurd hr (h rfl r)
  · rfl

/-- A fault does not depend on the way of replacing. -/
theorem substitute_of_expand_error {mode : Substitution} {s : String} {fault : Fault}
    (h : (Piece.parse s.toList).mapM m.expand = .error fault) :
    m.substitute mode s = .error fault := by
  by_cases hr : ∃ r, mode = .native ∧ Piece.parse s.toList = [.reference r]
  · obtain ⟨r, rfl, hr⟩ := hr
    rw [substitute_native_reference hr]
    rw [hr] at h
    cases hd : m.dereference r <;> simp_all [expand]
  · rw [substitute_of_ne fun hm r hp => hr ⟨r, hm, hp⟩, interpolate, h]
    rfl

theorem exists_values {t : List Segment}
    (h : ∀ name ∈ t.filterMap Segment.name?, (m.lookup? name).isSome) :
    ∃ values, t.mapM m.fill? = some values := by
  induction t with
  | nil => exact ⟨[], rfl⟩
  | cons s t ih =>
    obtain ⟨v, hv⟩ : ∃ v, m.fill? s = some v :=
      exists_fill? fun name hs => h name (List.mem_filterMap.2 ⟨s, List.mem_cons_self, hs⟩)
    obtain ⟨values, hvalues⟩ := ih fun name hn => by
      obtain ⟨s', hs', hn⟩ := List.mem_filterMap.1 hn
      exact h name (List.mem_filterMap.2 ⟨s', List.mem_cons_of_mem _ hs', hn⟩)
    exact ⟨v :: values, by simp [List.mapM_cons, hv, hvalues]⟩

theorem parse_template (t : List Segment) :
    Piece.parse (String.ofList (t.flatMap Segment.write)).toList = t.flatMap Segment.pieces := by
  rw [String.toList_ofList, Piece.parse_write]

/-- A template that is not a single reference becomes the texts of its segments,
    one after the other. -/
theorem resolve_template {mode : Substitution} {t : List Segment} {values : List Value}
    (h : t.mapM m.fill? = some values)
    (hne : mode = .native → ∀ r hr, t.filter (!·.isEmpty) ≠ [.reference r hr]) :
    m.resolve mode (Segment.template t) = .ok (.text (String.join (values.map Value.render))) := by
  obtain ⟨texts, htexts, hjoin⟩ := expand_segments h
  have hsub : ∀ r, mode = .native → t.flatMap Segment.pieces ≠ [.reference r] := by
    intro r hm hp
    obtain ⟨hr, hshown⟩ := Segment.exists_of_flatMap_pieces hp
    exact hne hm r hr hshown
  rw [Segment.template, resolve, substitute_of_ne fun hm r => parse_template t ▸ hsub r hm,
    parse_template, interpolate, htexts, ← hjoin]
  rfl

/-- A template that is a single reference becomes what that refers to. -/
theorem resolve_template_reference {t : List Segment} {r : Reference} (hr : r.Writable)
    (h : t.filter (!·.isEmpty) = [.reference r hr]) :
    m.resolve .native (Segment.template t) = m.dereference r := by
  have hp : t.flatMap Segment.pieces = [.reference r] := by
    rw [← Segment.flatMap_pieces_filter, h]
    rfl
  exact substitute_native_reference ((parse_template t).trans hp)

theorem resolve_reference {r : Reference} (hr : r.Writable) :
    m.resolve .native (.text (String.ofList r.write)) = m.dereference r := by
  have ht : Segment.template [.reference r hr] = .text (String.ofList r.write) := by
    simp [Segment.template, Segment.write]
  rw [← ht]
  exact resolve_template_reference hr rfl

/-- A text stands for itself if its percent signs are doubled. -/
theorem resolve_doubled (mode : Substitution) (text : String) :
    m.resolve mode (.text (String.ofList (doubled ['%'] text.toList))) = .ok (.text text) := by
  have ht : Segment.template [.literal text] =
      .text (String.ofList (doubled ['%'] text.toList)) := by
    simp [Segment.template, Segment.write]
  have hvalues : [Segment.literal text].mapM m.fill? = some [.text text] := rfl
  have hne : ∀ r hr, [Segment.literal text].filter (!·.isEmpty) ≠ [.reference r hr] := by
    intro r hr h
    have hmem := (List.mem_filter.1 (h.symm ▸ List.mem_singleton_self (Segment.reference r hr))).1
    simp at hmem
  rw [← ht, resolve_template hvalues fun _ => hne]
  simp [Value.render]

/-- Templates are replaced segment by segment.

    If every name in a template has a slot, the composite template becomes the
    texts of its segments, one after the other, with what is referred to as it
    stands. The native one becomes the same text, unless nothing but a single
    reference is written in it: then it becomes the value referred to, with its
    kind. If a name has no slot, both ways fail with the first such name. In
    particular a text stands for itself if its percent signs are doubled. -/
theorem resolve_segments (m : Memory) (t : List Segment) :
    let names := t.filterMap Segment.name?
    let shown := t.filter (!·.isEmpty)
    ((∀ name ∈ names, (m.lookup? name).isSome) →
      ∃ values, t.mapM m.fill? = some values ∧
        m.resolve .composite (Segment.template t) =
          .ok (.text (String.join (values.map Value.render))) ∧
        (∀ r h, shown = [.reference r h] →
          ∃ v, m.referent? r = some v ∧ m.resolve .native (Segment.template t) = .ok v) ∧
        ((∀ r h, shown ≠ [.reference r h]) →
          m.resolve .native (Segment.template t) =
            .ok (.text (String.join (values.map Value.render))))) ∧
    (∀ before name after, names = before ++ name :: after →
      (∀ n ∈ before, (m.lookup? n).isSome) → m.lookup? name = none →
        ∀ mode, m.resolve mode (Segment.template t) = .error (.undeclared name)) ∧
    ∀ mode (text : String),
      m.resolve mode (.text (String.ofList (doubled ['%'] text.toList))) = .ok (.text text) := by
  intro names shown
  refine ⟨fun hnames => ?_, fun before name after hn hbefore h mode => ?_, fun mode text => ?_⟩
  · obtain ⟨values, hvalues⟩ := exists_values hnames
    refine ⟨values, hvalues, resolve_template hvalues fun hm => ?_, fun r hr hshown => ?_,
      fun hne => resolve_template hvalues fun _ => hne⟩
    · cases hm
    · have hmem : .reference r hr ∈ t :=
        (List.mem_filter.1 (hshown.symm ▸ List.mem_singleton_self _)).1
      obtain ⟨v, hv⟩ : ∃ v, m.fill? (.reference r hr) = some v :=
        exists_fill? fun name hn => hnames name (List.mem_filterMap.2 ⟨_, hmem, hn⟩)
      exact ⟨v, hv, (resolve_template_reference hr hshown).trans (dereference_of_some hv)⟩
  · exact substitute_of_expand_error ((parse_template t).symm ▸ expand_segments_error hn hbefore h)
  · exact resolve_doubled mode text

/-- A value with percent signs in it, between a percent sign and an address. -/
theorem resolve_segments_percents :
    let m := Memory.start [.text "T", .text "%0%"] {}
    let t : List Segment := [.literal "5%", .reference (.argument 1) (by decide),
      .reference (.address "REGISTER") (by decide)]
    Segment.template t = .text "5%%%1%&REGISTER%" ∧
      (∀ name ∈ t.filterMap Segment.name?, (m.lookup? name).isSome) ∧
      m.resolve .composite (Segment.template t) = .ok (.text "5%%0%100") := by
  intro m t
  have hnames : ∀ name ∈ t.filterMap Segment.name?, (m.lookup? name).isSome := by decide +kernel
  have hvalues : t.mapM m.fill? = some [.text "5%", .text "%0%", .integer 100] := by
    decide +kernel
  obtain ⟨values, hv, hc, -⟩ := (resolve_segments m t).1 hnames
  obtain rfl := Option.some.inj (hvalues.symm.trans hv)
  exact ⟨by decide +kernel, hnames, hc.trans (by decide +kernel)⟩

end Memory

end SimpleBatch
