import SimpleBatch.CommandLine
import SimpleBatch.Proofs.Number

/-!
# Options in any order

A command line starts with options (`CommandLine.Given`): flags, and settings with a
value that is attached to them or the next word. The invocation follows
(`CommandLine.Invokes`), after a separator or at once; then its first word must not be
read as an option. `CommandLine.IsOption` gives the words that are, by their letters,
and `CommandLine.isOption_iff` says that they are the ones that the reader knows.

The reader takes the options from left to right. What it has taken so far is what its
settings hold (`Settings.Reflects`): one more option is added to them
(`read_given`), unless it was there before, and so are all (`read_givens`). What
settings hold does not depend on the order of the options, and neither does the request
that comes of them (`options_in_any_order`).
-/

namespace SimpleBatch.CommandLine

open Text

/-! ## Words -/

/-- The name of a flag. -/
def Flag.name : Flag → String
  | dumpMemory => "--dump-memory"
  | inDesigner => "--in-designer"
  | inLevel => "--in-level"

/-- The name of a setting. -/
def Setting.name : Setting → String
  | dir => "--dir"
  | seed => "--seed"
  | levelName => "--level-name"
  | mapName => "--map-name"

/-- The name of an option, and what it is with a value attached to it or without one. -/
inductive Names : String → (Option String → Word) → Prop
  | flag (f : Flag) : Names f.name (.flag f)
  | setting (s : Setting) : Names s.name (.setting s)
  | help : Names "--help" .help
  | version : Names "--version" .version

/-- A name, perhaps with a value attached to it. -/
def attach (name : String) : Option String → String
  | none => name
  | some value => name ++ "=" ++ value

/-- The words that are read as an option before the invocation. -/
inductive IsOption : String → Prop
  | named {name : String} {option : Option String → Word} (attached : Option String) :
    Names name option → IsOption (attach name attached)
  | separator : IsOption "--"
  /-- One letter after a dash, or several of them that stand together. -/
  | letters {letters : List Char} : letters ≠ [] → (∀ c ∈ letters, c = 'h' ∨ c = 'V') →
    IsOption (String.ofList ('-' :: letters))

section Words

variable {name word : String} {option : Option String → Word} {attached : Option String}

theorem Names.exists_cons (h : Names name option) :
    (∃ c cs, name.toList = '-' :: '-' :: c :: cs) ∧ '=' ∉ name.toList := by
  cases h with
  | flag f => cases f <;> exact ⟨⟨_, _, rfl⟩, by decide⟩
  | setting s => cases s <;> exact ⟨⟨_, _, rfl⟩, by decide⟩
  | help => exact ⟨⟨_, _, rfl⟩, by decide⟩
  | version => exact ⟨⟨_, _, rfl⟩, by decide⟩

theorem Names.ne_plain (h : Names name option) : option attached ≠ .plain := by
  cases h <;> exact Word.noConfusion

theorem names_of_mem : ∀ o ∈ options, Names o.1 o.2 := by
  simp only [options, List.forall_mem_cons]
  exact ⟨.setting .dir, .flag .dumpMemory, .setting .seed, .flag .inDesigner, .flag .inLevel,
    .setting .levelName, .setting .mapName, .help, .version, List.forall_mem_nil _⟩

theorem lookup_eq_some : options.lookup name = some option ↔ Names name option := by
  constructor
  · intro h
    obtain ⟨before, after, hoptions, -⟩ := List.lookup_eq_some_iff.1 h
    exact names_of_mem (name, option) (by simp [hoptions])
  · intro h
    cases h with
    | flag f => cases f <;> rfl
    | setting s => cases s <;> rfl
    | help => rfl
    | version => rfl

theorem splitWord_attach (h : '=' ∉ name.toList) (attached : Option String) :
    splitWord (attach name attached) = (name, attached) := by
  have hname : ∀ c ∈ name.toList, decide (c ≠ '=') = true :=
    fun c hc => decide_eq_true fun heq => h (heq ▸ hc)
  cases attached with
  | none =>
    have hspan := @span_append _ _ [] hname (by simp)
    rw [List.append_nil] at hspan
    simp only [splitWord, attach, hspan.2]
  | some value =>
    have htoList : (attach name (some value)).toList = name.toList ++ '=' :: value.toList := by
      simp [attach]
    have hspan := @span_append _ _ ('=' :: value.toList) hname (by simp)
    simp only [splitWord, htoList, hspan.1, hspan.2, String.ofList_toList]

/-- Every word is split at its first equals sign. -/
theorem exists_attach (word : String) :
    ∃ name attached, attach name attached = word ∧ '=' ∉ name.toList := by
  by_cases h : '=' ∈ word.toList
  · obtain ⟨before, after, hword, hbefore⟩ := List.eq_append_cons_of_mem h
    refine ⟨String.ofList before, some (String.ofList after), ?_, ?_⟩
    · exact String.toList_inj.1 (by simp [attach, hword])
    · rwa [String.toList_ofList]
  · exact ⟨word, none, rfl, h⟩

/-- A word names an option exactly if it is its name, perhaps with a value attached. -/
theorem ofName?_eq_some {w : Word} :
    Word.ofName? word = some w ↔
      ∃ name option attached, Names name option ∧ attach name attached = word ∧
        option attached = w := by
  have hname : Word.ofName? word =
      (options.lookup (splitWord word).1).map (· (splitWord word).2) := rfl
  rw [hname, Option.map_eq_some_iff]
  constructor
  · rintro ⟨option, hlookup, hw⟩
    obtain ⟨name, attached, rfl, hequals⟩ := exists_attach word
    rw [splitWord_attach hequals] at hlookup hw
    exact ⟨name, option, attached, lookup_eq_some.1 hlookup, rfl, hw⟩
  · rintro ⟨name, option, attached, hnames, rfl, hw⟩
    rw [splitWord_attach hnames.exists_cons.2]
    exact ⟨option, lookup_eq_some.2 hnames, hw⟩

theorem exists_ofLetters? {letters : List Char} (hne : letters ≠ [])
    (h : ∀ c ∈ letters, c = 'h' ∨ c = 'V') : ∃ w, Word.ofLetters? letters = some w := by
  have hall : (letters.all fun c => c = 'h' || c = 'V') = true := by
    simpa [List.all_eq_true, or_iff_not_imp_left] using h
  obtain ⟨c, cs, rfl⟩ := List.exists_cons_of_ne_nil hne
  exact ⟨_, if_pos hall⟩

theorem ofLetters?_eq_some {letters : List Char} {w : Word} (h : Word.ofLetters? letters = some w) :
    letters ≠ [] ∧ (∀ c ∈ letters, c = 'h' ∨ c = 'V') ∧ w ≠ .plain := by
  unfold Word.ofLetters? at h
  split at h
  · next hall =>
    obtain ⟨c, hc, rfl⟩ := Option.map_eq_some_iff.1 h
    refine ⟨?_, by simpa [or_iff_not_imp_left] using hall, ?_⟩
    · rintro rfl
      cases hc
    · split <;> exact Word.noConfusion
  · cases h

theorem ofString_of_cons {letters : List Char} (h : word.toList = '-' :: letters)
    (hne : letters ≠ ['-']) :
    Word.ofString word = ((Word.ofLetters? letters).or (Word.ofName? word)).getD .plain := by
  unfold Word.ofString
  split
  · next hdashes => exact absurd (List.cons.inj (h.symm.trans hdashes)).2 hne
  · next letters' _ hword =>
    obtain rfl : letters = letters' := (List.cons.inj (h.symm.trans hword)).2
    rfl
  · next hplain => exact absurd h (hplain letters)

theorem ofString_attach (h : Names name option) (attached : Option String) :
    Word.ofString (attach name attached) = option attached := by
  obtain ⟨c, cs, hname⟩ := h.exists_cons.1
  have htoList : ∃ cs', (attach name attached).toList = '-' :: '-' :: c :: cs' := by
    cases attached <;> simp [attach, hname]
  obtain ⟨cs', htoList⟩ := htoList
  -- After two dashes no letters of requests are looked for.
  have hletters : Word.ofLetters? ('-' :: c :: cs') = none :=
    Option.eq_none_iff_forall_ne_some.2 fun w hw =>
      absurd ((ofLetters?_eq_some hw).2.1 '-' List.mem_cons_self) (by decide)
  rw [ofString_of_cons htoList (by simp), hletters, Option.none_or,
    ofName?_eq_some.2 ⟨name, option, attached, h, rfl, rfl⟩, Option.getD_some]

/-- A word is read as an option exactly if it is one. -/
theorem isOption_iff : IsOption word ↔ Word.ofString word ≠ .plain := by
  constructor
  · intro h
    cases h with
    | named attached h =>
      rw [ofString_attach h]
      exact h.ne_plain
    | separator => decide
    | @letters letters hne h =>
      obtain ⟨w, hletters⟩ := exists_ofLetters? hne h
      have hdash : letters ≠ ['-'] := by
        rintro rfl
        exact absurd (h '-' List.mem_cons_self) (by decide)
      rw [ofString_of_cons String.toList_ofList hdash, hletters]
      exact (ofLetters?_eq_some hletters).2.2
  · intro h
    unfold Word.ofString at h
    split at h
    · next hword =>
      obtain rfl : word = "--" := String.toList_inj.1 hword
      exact .separator
    · next letters hdash hword =>
      obtain rfl : word = String.ofList ('-' :: letters) := by
        rw [← hword, String.ofList_toList]
      cases hletters : Word.ofLetters? letters with
      | some w =>
        obtain ⟨hne, hall, -⟩ := ofLetters?_eq_some hletters
        exact .letters hne hall
      | none =>
        cases hname : Word.ofName? (String.ofList ('-' :: letters)) with
        | some w =>
          obtain ⟨name, option, attached, hnames, hattach, -⟩ := ofName?_eq_some.1 hname
          exact hattach ▸ .named attached hnames
        | none =>
          rw [hletters, hname] at h
          exact absurd rfl h
    · exact absurd rfl h

theorem ofString_of_not_isOption (h : ¬IsOption word) : Word.ofString word = .plain :=
  not_not.1 (mt isOption_iff.2 h)

instance : DecidablePred IsOption :=
  fun _ => decidable_of_iff _ isOption_iff.symm

end Words

/-! ## Values -/

/-- The seed that a text denotes: digits after an optional plus sign, with a number of
    64 bits. -/
inductive IsSeed : String → UInt64 → Prop
  | mk {sign digits : List Char} {n : UInt64} : Decimal.IsSign sign false → digits ≠ [] →
    (∀ c ∈ digits, c.isDigit) → Nat.ofDigitChars 10 digits 0 = n.toNat →
    IsSeed (String.ofList (sign ++ digits)) n

theorem readSeed?_of_isSign {sign digits : List Char} (hsign : Decimal.IsSign sign false)
    (hplus : sign = [] → digits.head? ≠ some '+') :
    readSeed? (String.ofList (sign ++ digits)) =
      if digits.isEmpty || !digits.all Char.isDigit then none
      else if numeralValue 10 digits < UInt64.size then
        some (UInt64.ofNat (numeralValue 10 digits))
      else none := by
  cases hsign with
  | none =>
    cases digits with
    | nil => rfl
    | cons c cs =>
      have hc : c ≠ '+' := fun hc => hplus rfl (congrArg some hc)
      simp [readSeed?, hc]
  | plus => simp [readSeed?]

/-- A text is read as a seed exactly if it denotes one. -/
theorem readSeed?_eq_some {text : String} {n : UInt64} :
    readSeed? text = some n ↔ IsSeed text n := by
  constructor
  · intro h
    obtain ⟨sign, digits, hsign, hplus, rfl⟩ : ∃ sign digits, Decimal.IsSign sign false ∧
        (sign = [] → digits.head? ≠ some '+') ∧ text = String.ofList (sign ++ digits) := by
      by_cases hhead : text.toList.head? = some '+'
      · obtain ⟨cs, hcs⟩ := List.head?_eq_some_iff.1 hhead
        refine ⟨['+'], cs, .plus, fun hnil => absurd hnil (by decide), ?_⟩
        rw [List.singleton_append, ← hcs, String.ofList_toList]
      · exact ⟨[], text.toList, .none, fun _ => hhead, by simp⟩
    rw [readSeed?_of_isSign hsign hplus] at h
    split at h
    · cases h
    next hdigits =>
    split at h
    · next hlt =>
      obtain ⟨hne, hall⟩ : digits ≠ [] ∧ ∀ c ∈ digits, c.isDigit := by simpa using hdigits
      cases h
      refine .mk hsign hne hall ?_
      rw [UInt64.toNat_ofNat_of_lt' hlt, Decimal.numeralValue_eq hall]
    · cases h
  · rintro ⟨hsign, hne, hdigits, hn⟩
    next sign digits =>
    have hplus : digits.head? ≠ some '+' := fun hhead =>
      absurd (hdigits '+' (List.mem_of_mem_head? hhead)) (by decide)
    rw [readSeed?_of_isSign hsign fun _ => hplus, if_neg (by simpa using ⟨hne, hdigits⟩),
      Decimal.numeralValue_eq hdigits, hn, if_pos n.toNat_lt, UInt64.ofNat_toNat]

/-- The values that a setting takes. -/
def Setting.Accepts : Setting → String → Prop
  | dir, value => value ≠ ""
  | seed, value => ∃ n, IsSeed value n
  | levelName, _ => True
  | mapName, _ => True

/-! ## Options -/

/-- An option as it is given: a flag, or a setting with a value, which is attached to it
    or the next word. -/
inductive Given where
  | flag (f : Flag)
  | setting (s : Setting) (value : String) (attached : Bool)
deriving DecidableEq

namespace Given

/-- The option that is given. -/
def name : Given → String
  | flag f => f.name
  | setting s _ _ => s.name

/-- The words of an option. -/
def words : Given → List String
  | flag f => [f.name]
  | setting s value true => [attach s.name (some value)]
  | setting s value false => [s.name, value]

/-- A value must be one that the setting takes. As a word of its own, it must not be read
    as an option either. -/
def Acceptable : Given → Prop
  | flag _ => True
  | setting s value attached => s.Accepts value ∧ (attached = false → ¬IsOption value)

end Given

/-- Options give a setting a value. -/
def Gives (given : List Given) (s : Setting) (value : String) : Prop :=
  ∃ attached, .setting s value attached ∈ given

/-- What follows the options, and the words of the invocation in it. -/
inductive Invokes : List String → List String → Prop
  | word {word : String} {rest : List String} : ¬IsOption word →
    Invokes (word :: rest) (word :: rest)
  | separator {word : String} {rest : List String} : Invokes ("--" :: word :: rest) (word :: rest)

/-- Settings that hold what options give, and nothing else. -/
structure Settings.Reflects (s : Settings) (given : List Given) : Prop where
  flags : ∀ f, f ∈ s.flags ↔ .flag f ∈ given
  dir : ∀ value, s.dir = some value ↔ Gives given .dir value
  seed : ∀ n, s.seed = some n ↔ ∃ value, Gives given .seed value ∧ IsSeed value n
  levelName : ∀ value, s.levelName = some value ↔ Gives given .levelName value
  mapName : ∀ value, s.mapName = some value ↔ Gives given .mapName value

/-- A request that holds what options give, and the default where they give nothing. -/
structure Request.Reflects (r : Request) (given : List Given) : Prop where
  dumpMemory : r.dumpMemory ↔ .flag .dumpMemory ∈ given
  inDesigner : r.inDesigner ↔ .flag .inDesigner ∈ given
  inLevel : r.inLevel ↔ .flag .inLevel ∈ given
  dir : ∀ value, r.dir = some value ↔ Gives given .dir value
  seed : ∀ n, r.seed = some n ↔ ∃ value, Gives given .seed value ∧ IsSeed value n
  levelName : ∀ value, r.levelName = value ↔
    Gives given .levelName value ∨ value = "" ∧ ∀ v, ¬Gives given .levelName v
  mapName : ∀ value, r.mapName = value ↔
    Gives given .mapName value ∨ value = "" ∧ ∀ v, ¬Gives given .mapName v

/-! ## Settings -/

section Reading

variable {s : Settings} {r r' : Request} {g : Given} {given order done : List Given}
  {tail words : List String}

theorem Gives.mem {setting : Setting} {value : String} (h : Gives given setting value) :
    setting.name ∈ given.map Given.name := by
  obtain ⟨attached, hmem⟩ := h
  exact List.mem_map_of_mem hmem

@[simp]
theorem gives_append_flag {setting : Setting} {value : String} (f : Flag) :
    Gives (given ++ [.flag f]) setting value ↔ Gives given setting value := by
  simp [Gives]

@[simp]
theorem gives_append_setting {setting setting' : Setting} {value value' : String}
    {attached : Bool} :
    Gives (given ++ [.setting setting' value' attached]) setting value ↔
      Gives given setting value ∨ setting = setting' ∧ value = value' := by
  simp [Gives, exists_or]

theorem Settings.reflects_nil : ({} : Settings).Reflects [] := by
  constructor <;> simp [Gives]

/-- A flag that is new is raised. -/
theorem Settings.Reflects.raise {f : Flag} (h : s.Reflects given)
    (hnew : f.name ∉ given.map Given.name) :
    ∃ s', s.raise f = .ok s' ∧ s'.Reflects (given ++ [.flag f]) := by
  have hf : f ∉ s.flags := fun hf => hnew (List.mem_map_of_mem ((h.flags f).1 hf))
  refine ⟨_, if_neg hf, ?_, ?_, ?_, ?_, ?_⟩
  · simp [h.flags, or_comm]
  · simpa using h.dir
  · simpa using h.seed
  · simpa using h.levelName
  · simpa using h.mapName

theorem eq_none_of_forall_not {α : Type} {o : Option α} {P : α → Prop}
    (h : ∀ v, o = some v ↔ P v) (hnot : ∀ v, ¬P v) : o = none :=
  Option.eq_none_iff_forall_ne_some.2 fun v hv => hnot v ((h v).1 hv)

/-- A setting that is new takes an acceptable value. -/
theorem Settings.Reflects.assign {setting : Setting} {value : String} (h : s.Reflects given)
    (hnew : setting.name ∉ given.map Given.name) (hvalue : setting.Accepts value)
    (attached : Bool) :
    ∃ s', s.assign setting value = .ok s' ∧
      s'.Reflects (given ++ [.setting setting value attached]) := by
  have hnot : ∀ v, ¬Gives given setting v := fun v hv => hnew hv.mem
  cases setting with
  | dir =>
    have hnone : s.dir = none := eq_none_of_forall_not h.dir hnot
    refine ⟨{ s with dir := some value }, ?_, ?_⟩
    · have hne : value ≠ "" := hvalue
      simp [Settings.assign, hnone, hne]
    · constructor <;> simp [h.flags, h.seed, h.levelName, h.mapName, hnot, eq_comm]
  | seed =>
    have hnone : s.seed = none :=
      eq_none_of_forall_not h.seed fun n ⟨v, hv, _⟩ => hnot v hv
    obtain ⟨n, hn⟩ := hvalue
    have hread := readSeed?_eq_some.2 hn
    refine ⟨{ s with seed := some n }, ?_, ?_⟩
    · simp [Settings.assign, hnone, hread]
    · constructor <;>
        simp [h.flags, h.dir, h.levelName, h.mapName, hnot, ← readSeed?_eq_some, hread]
  | levelName =>
    have hnone : s.levelName = none := eq_none_of_forall_not h.levelName hnot
    refine ⟨{ s with levelName := some value }, ?_, ?_⟩
    · simp [Settings.assign, hnone]
    · constructor <;> simp [h.flags, h.dir, h.seed, h.mapName, hnot, eq_comm]
  | mapName =>
    have hnone : s.mapName = none := eq_none_of_forall_not h.mapName hnot
    refine ⟨{ s with mapName := some value }, ?_, ?_⟩
    · simp [Settings.assign, hnone]
    · constructor <;> simp [h.flags, h.dir, h.seed, h.levelName, hnot, eq_comm]

/-! ## Reading -/

/-- One more option is taken. -/
theorem read_given (hs : s.Reflects given) (hg : g.Acceptable)
    (hnew : g.name ∉ given.map Given.name) :
    ∃ s' : Settings, s'.Reflects (given ++ [g]) ∧
      ∀ rest, read s (g.words ++ rest) = read s' rest := by
  cases g with
  | flag f =>
    obtain ⟨s', hraise, hs'⟩ := hs.raise hnew
    have hword : Word.ofString f.name = .flag f none := ofString_attach (.flag f) none
    exact ⟨s', hs', fun rest => by simp [Given.words, read, hword, hraise]⟩
  | setting setting value attached =>
    obtain ⟨hvalue, hplain⟩ := hg
    obtain ⟨s', hassign, hs'⟩ := hs.assign hnew hvalue attached
    refine ⟨s', hs', fun rest => ?_⟩
    cases attached with
    | true =>
      have hword := ofString_attach (.setting setting) (some value)
      simp [Given.words, read, hword, hassign]
    | false =>
      have hword : Word.ofString setting.name = .setting setting none :=
        ofString_attach (.setting setting) none
      have hplain := ofString_of_not_isOption (hplain rfl)
      simp [Given.words, read, hword, hplain, hassign]

/-- All options are taken, one after the other. -/
theorem read_givens (hs : s.Reflects done) (hgiven : ∀ g ∈ given, g.Acceptable)
    (hdistinct : ((done ++ given).map Given.name).Nodup) :
    ∃ s' : Settings, s'.Reflects (done ++ given) ∧
      ∀ rest, read s (given.flatMap Given.words ++ rest) = read s' rest := by
  -- What was taken before is kept apart, as an option is new if it is not among that.
  induction given generalizing s done with
  | nil => exact ⟨s, by rwa [List.append_nil], fun rest => rfl⟩
  | cons g given ih =>
    obtain ⟨hg, hgiven⟩ := List.forall_mem_cons.1 hgiven
    have hnew : g.name ∉ done.map Given.name := by
      rw [List.map_append, List.map_cons, List.nodup_append] at hdistinct
      exact fun hmem => hdistinct.2.2 _ hmem _ List.mem_cons_self rfl
    obtain ⟨s', hs', hread⟩ := read_given hs hg hnew
    rw [List.append_cons] at hdistinct ⊢
    obtain ⟨s'', hs'', hrest⟩ := ih hs' hgiven hdistinct
    refine ⟨s'', hs'', fun rest => ?_⟩
    rw [List.flatMap_cons, List.append_assoc, hread, hrest]

theorem read_of_invokes (h : Invokes tail words) (s : Settings) : read s tail = .ok (s, words) := by
  cases h with
  | word hword =>
    have hplain := ofString_of_not_isOption hword
    simp [read, hplain]
  | separator =>
    have hword : Word.ofString "--" = .separator := by decide
    simp [read, hword]

/-! ## Requests -/

theorem getD_eq_iff {o : Option String} {P : String → Prop} (h : ∀ v, o = some v ↔ P v)
    (value : String) : o.getD "" = value ↔ P value ∨ value = "" ∧ ∀ v, ¬P v := by
  cases o with
  | none => simp [← h, eq_comm]
  | some v => simp [← h]

theorem exists_parse (hgiven : ∀ g ∈ given, g.Acceptable)
    (hdistinct : (given.map Given.name).Nodup) (htail : Invokes tail words) :
    ∃ r, parse (given.flatMap Given.words ++ tail) = .ok r ∧ r.Reflects given ∧
      r.words = words := by
  obtain ⟨s, hs, hread⟩ := read_givens Settings.reflects_nil hgiven hdistinct
  refine ⟨_, by rw [parse, hread, read_of_invokes htail]; rfl, ?_, rfl⟩
  exact
    { dumpMemory := by simp [hs.flags]
      inDesigner := by simp [hs.flags]
      inLevel := by simp [hs.flags]
      dir := hs.dir
      seed := hs.seed
      levelName := getD_eq_iff hs.levelName
      mapName := getD_eq_iff hs.mapName }

theorem Request.Reflects.perm (h : r.Reflects given) (hperm : order.Perm given) :
    r.Reflects order := by
  have hmem : ∀ g, g ∈ order ↔ g ∈ given := fun g => hperm.mem_iff
  have hgives : ∀ s v, Gives order s v ↔ Gives given s v := by simp [Gives, hmem]
  constructor <;> simp only [hmem, hgives]
  exacts [h.dumpMemory, h.inDesigner, h.inLevel, h.dir, h.seed, h.levelName, h.mapName]

/-- Options leave nothing open about a request but the words of its invocation. -/
theorem Request.Reflects.unique (h : r.Reflects given) (h' : r'.Reflects given)
    (hwords : r.words = r'.words) : r = r' := by
  have htext {value value' : String} {P : String → Prop} (hvalue : ∀ v, value = v ↔ P v)
      (hvalue' : ∀ v, value' = v ↔ P v) : value = value' := (hvalue _).2 ((hvalue' _).1 rfl)
  cases r
  cases r'
  rw [Request.mk.injEq]
  exact ⟨hwords, Option.ext fun v => (h.dir v).trans (h'.dir v).symm,
    Bool.eq_iff_iff.2 (h.dumpMemory.trans h'.dumpMemory.symm),
    Option.ext fun n => (h.seed n).trans (h'.seed n).symm,
    Bool.eq_iff_iff.2 (h.inDesigner.trans h'.inDesigner.symm),
    Bool.eq_iff_iff.2 (h.inLevel.trans h'.inLevel.symm),
    htext h.levelName h'.levelName, htext h.mapName h'.mapName⟩

/-- Options can be given in any order, and the invocation is kept as it is written.

    Let different options be given, each setting with a value that it takes, attached to
    it or in a word of its own that is not read as an option. Let a word follow that is
    not read as an option either, or a separator and a word, and then any words. Such a
    command line is a request with the values that are given, and with the defaults of the
    other options, and it is the same request for every order of the options. The words of
    the invocation are those that follow, without the separator before the first of them,
    and its line has one blank between two words. -/
theorem options_in_any_order (hgiven : ∀ g ∈ given, g.Acceptable)
    (hdistinct : (given.map Given.name).Nodup) (htail : Invokes tail words) :
    ∃ r : Request, r.Reflects given ∧ r.words = words ∧
      r.line.toList = [' '].intercalate (words.map String.toList) ∧
      ∀ order : List Given, order.Perm given →
        parse (order.flatMap Given.words ++ tail) = .ok r := by
  obtain ⟨r, -, hr, rfl⟩ := exists_parse hgiven hdistinct htail
  refine ⟨r, hr, rfl, String.toList_intercalate, fun order hperm => ?_⟩
  have hgiven' : ∀ g ∈ order, g.Acceptable := fun g hg => hgiven g (hperm.mem_iff.1 hg)
  have hdistinct' : (order.map Given.name).Nodup := (hperm.map _).nodup_iff.2 hdistinct
  obtain ⟨r', hparse, hr', hwords⟩ := exists_parse hgiven' hdistinct' htail
  rw [hparse, hr'.unique (hr.perm hperm) hwords]

end Reading

/-- Values that look like options and like nothing, a seed with zeros, and an invocation
    that starts with an unknown option, or after a separator. -/
theorem options_in_any_order_mixed :
    let given : List Given := [.setting .dir "-hx" false, .flag .inLevel,
      .setting .seed "+007" true, .setting .levelName "" false, .setting .mapName "--dir" true]
    let words := ["--foo=1", "--seed", "--", "-h"]
    (∀ g ∈ given, g.Acceptable) ∧ (given.map Given.name).Nodup ∧ Invokes words words ∧
      Invokes ("--" :: "--help" :: words) ("--help" :: words) ∧
      (∃ r : Request, r.Reflects given ∧ r.words = words ∧
        r.line.toList = [' '].intercalate (words.map String.toList) ∧
        ∀ order : List Given, order.Perm given →
          parse (order.flatMap Given.words ++ words) = .ok r) ∧
      ∃ r : Request, r.Reflects given ∧ r.words = "--help" :: words ∧
        r.line.toList = [' '].intercalate (("--help" :: words).map String.toList) ∧
        ∀ order : List Given, order.Perm given →
          parse (order.flatMap Given.words ++ "--" :: "--help" :: words) = .ok r := by
  intro given words
  have hseed : IsSeed "+007" 7 := readSeed?_eq_some.1 (by decide +kernel)
  have hgiven : ∀ g ∈ given, g.Acceptable := by
    simp only [given, List.forall_mem_cons]
    have hdir : "-hx" ≠ "" := by decide
    exact ⟨⟨hdir, fun _ => by decide⟩, trivial, ⟨⟨7, hseed⟩, nofun⟩,
      ⟨trivial, fun _ => by decide⟩, ⟨trivial, nofun⟩, List.forall_mem_nil _⟩
  have hdistinct : (given.map Given.name).Nodup := by decide
  have hwords : Invokes words words := .word (by decide)
  exact ⟨hgiven, hdistinct, hwords, .separator, options_in_any_order hgiven hdistinct hwords,
    options_in_any_order hgiven hdistinct .separator⟩

/-- Two letters after a dash are the name of no option. Still they are read as a request
    for help, and are neither the first word of an invocation nor a value. -/
theorem letters_refused :
    "-hV" ∉ ["-h", "-V", "--"] ∧
      (∀ name option attached, Names name option → attach name attached ≠ "-hV") ∧
      parse ["-hV"] = .error .help ∧ parse ["--dir", "-hV", "X"] = .error .invalidValue := by
  refine ⟨by decide, fun name option attached hnames hattach => ?_, rfl, rfl⟩
  have hname : Word.ofName? "-hV" = none := by decide
  exact Option.some_ne_none _ ((ofName?_eq_some.2 ⟨_, _, _, hnames, hattach, rfl⟩).symm.trans hname)

end SimpleBatch.CommandLine
