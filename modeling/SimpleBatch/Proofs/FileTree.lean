import SimpleBatch.Files.Tree
import SimpleBatch.ScriptFolder

/-!
# Trees of files

A path is followed name by name through directories (`FileTree.walk_cons_eq_ok`,
`FileTree.locate_eq_ok`), so it leads to the same place in every tree that has
these directories.

To make a directory, those it is in are made as well. This lets a tree grow
(`FileTree.Grown`): nothing is gone, and what is new lies on the way to the
directory (`Files.grown_createDirectories`). So a directory that was not there
is empty when it has been made, and the first file that is written is all that
is in it (`FileTree.names_of_created`).

This needs a path whose steps back are taken in directories that are there
(`FileTree.AimsAt`). By way of a directory that is made only now, a step back can
lead into a directory that has long been there, or into one in which another has
just been made.
-/

namespace SimpleBatch

/-! ## Paths -/

/-- A name that can be a component of a path. -/
structure IsComponent (name : String) : Prop where
  ne_empty : name ≠ ""
  no_slash : '/' ∉ name.toList

/-- The components of a path are the parts between its slashes that are not
    empty. -/
theorem pathComponents_eq (path : String) :
    pathComponents path = ((path.toList.splitOn '/').filter (· ≠ [])).map String.ofList := by
  have hgo : ∀ cs part, pathComponents.go cs part = List.splitOnPPrepend (· == '/') cs part := by
    intro cs
    induction cs with
    | nil => exact fun _ => rfl
    | cons c cs ih =>
      intro part
      simp only [pathComponents.go, List.splitOnPPrepend_cons_eq_if, ih, beq_iff_eq]
      rfl
  rw [pathComponents, hgo]
  rfl

theorem pathComponents_append_slash (a b : String) :
    pathComponents (a ++ "/" ++ b) = pathComponents a ++ pathComponents b := by
  have hsplit : (a ++ "/" ++ b).toList = a.toList ++ '/' :: b.toList := by simp
  rw [pathComponents_eq, hsplit, List.splitOn_append_cons_self, List.filter_append,
    List.map_append, ← pathComponents_eq, ← pathComponents_eq]

theorem pathComponents_of_isComponent {name : String} (h : IsComponent name) :
    pathComponents name = [name] := by
  have hne : name.toList ≠ [] := by simpa using h.ne_empty
  rw [pathComponents_eq, List.splitOn_eq_singleton h.no_slash]
  simp [hne]

theorem isComponent_of_mem {path name : String} (h : name ∈ pathComponents path) :
    IsComponent name := by
  have hgo : ∀ cs part, '/' ∉ part → ∀ p ∈ pathComponents.go cs part, '/' ∉ p := by
    intro cs
    induction cs with
    | nil => intro part hpart p hp; simp_all [pathComponents.go]
    | cons c cs ih =>
      intro part hpart p hp
      rw [pathComponents.go] at hp
      split at hp
      · rcases List.mem_cons.1 hp with rfl | hp
        · simpa using hpart
        · exact ih [] List.not_mem_nil p hp
      · next hc => exact ih (c :: part) (by simp [hpart, Ne.symm hc]) p hp
  obtain ⟨p, hp, rfl⟩ := List.mem_map.1 h
  obtain ⟨hp, hne⟩ := List.mem_filter.1 hp
  refine ⟨by simpa using hne, ?_⟩
  simpa using hgo path.toList [] List.not_mem_nil p hp

/-- Components that are written with slashes between them are read back. -/
theorem pathComponents_intercalate {names : List String} (h : ∀ name ∈ names, IsComponent name) :
    pathComponents (String.intercalate "/" names) = names := by
  match names with
  | [] => rfl
  | [name] =>
    rw [String.intercalate_singleton]
    exact pathComponents_of_isComponent (h name List.mem_cons_self)
  | name :: next :: rest =>
    rw [String.intercalate_cons_cons, pathComponents_append_slash,
      pathComponents_of_isComponent (h name List.mem_cons_self),
      pathComponents_intercalate fun n hn => h n (List.mem_cons_of_mem _ hn), List.singleton_append]

theorem not_isAbsolute {name : String} (h : IsComponent name) : isAbsolute name = false := by
  unfold isAbsolute
  rcases hn : name.toList with _ | ⟨c, cs⟩
  · rfl
  · have hc : c ≠ '/' := fun hc => h.no_slash (by simp [hn, hc])
    simp [hc]

/-- A name below a directory is one more component. -/
theorem pathComponents_joinPath {dir name : String} (hd : dir ≠ "") (hn : IsComponent name) :
    pathComponents (joinPath dir name) = pathComponents dir ++ [name] := by
  unfold joinPath
  rw [if_neg (by simp [not_isAbsolute hn, hd])]
  split
  · next hlast =>
    obtain ⟨cs, hcs⟩ := List.getLast?_eq_some_iff.1 hlast
    have hdir : dir = String.ofList cs ++ "/" := String.toList_inj.1 (by simp [hcs])
    have hempty : pathComponents "" = [] := rfl
    have hself := pathComponents_append_slash (String.ofList cs) ""
    rw [hempty, List.append_nil, String.append_empty] at hself
    rw [hdir, pathComponents_append_slash, hself, pathComponents_of_isComponent hn]
  · rw [pathComponents_append_slash, pathComponents_of_isComponent hn]

theorem isAbsolute_joinPath {dir name : String} (hd : dir ≠ "") (hn : IsComponent name) :
    isAbsolute (joinPath dir name) = isAbsolute dir := by
  obtain ⟨c, cs, hcs⟩ := List.exists_cons_of_ne_nil (mt String.toList_eq_nil_iff.1 hd)
  unfold joinPath
  rw [if_neg (by simp [not_isAbsolute hn, hd])]
  split <;> simp [isAbsolute, hcs]

/-- A path can be written by its components. -/
theorem pathComponents_root_append {path : String} {names : List String}
    (h : ∀ name ∈ names, IsComponent name) :
    pathComponents ((if isAbsolute path then "/" else "") ++ String.intercalate "/" names) =
      names := by
  cases isAbsolute path with
  | true =>
    have hslash := pathComponents_append_slash "" (String.intercalate "/" names)
    rw [String.empty_append, pathComponents_intercalate h] at hslash
    exact hslash
  | false => exact (String.empty_append ▸ pathComponents_intercalate h)

theorem isAbsolute_root_append {path : String} {names : List String} (hne : names ≠ [])
    (h : ∀ name ∈ names, IsComponent name) :
    isAbsolute ((if isAbsolute path then "/" else "") ++ String.intercalate "/" names) =
      isAbsolute path := by
  cases isAbsolute path with
  | true => simp [isAbsolute]
  | false =>
    obtain ⟨name, rest, rfl⟩ := List.exists_cons_of_ne_nil hne
    have hname := h name List.mem_cons_self
    obtain ⟨c, cs, hcs⟩ := List.exists_cons_of_ne_nil (mt String.toList_eq_nil_iff.1 hname.ne_empty)
    have hc : c ≠ '/' := fun hc => hname.no_slash (by simp [hcs, hc])
    cases rest with
    | nil => simp [isAbsolute, hcs, hc]
    | cons next rest => simp [isAbsolute, hcs, hc, String.intercalate_cons_cons]

namespace FileTree

variable {t t' : FileTree} {place p q : List String} {names : List String}

/-! ## Places -/

theorem mem_of_node? {n : Node} (hp : p ≠ []) (h : t.node? p = some n) : (p, n) ∈ t.nodes := by
  rw [node?, if_neg hp, Option.map_eq_some_iff] at h
  obtain ⟨e, he, rfl⟩ := h
  have hplace : e.1 = p := by simpa using List.find?_some he
  exact hplace ▸ List.mem_of_find?_eq_some he

theorem node?_put (n : Node) (hq : q ≠ []) :
    (t.put place n).node? q = if place = q then some n else t.node? q := by
  simp only [node?, if_neg hq, put, List.find?_cons]
  by_cases hp : place = q
  · simp [hp]
  · have hfilter : (t.nodes.filter (·.1 ≠ place)).find? (·.1 = q) = t.nodes.find? (·.1 = q) := by
      rw [List.find?_filter]
      congr 1
      funext e
      by_cases he : e.1 = q
      · simp [he, Ne.symm hp]
      · simp [he]
    rw [hfilter]
    simp [hp]

/-- Everything that there is, is in a directory. -/
def WellFormed (t : FileTree) : Prop :=
  ∀ e ∈ t.nodes, t.node? e.1.dropLast = some .directory

/-- A directory is in directories all the way from the root. -/
theorem WellFormed.directory_of_append (h : t.WellFormed) {rest : List String}
    (hn : t.node? (p ++ rest) = some .directory) : t.node? p = some .directory := by
  induction rest generalizing p with
  | nil => rwa [List.append_nil] at hn
  | cons name rest ih =>
    have hchild : t.node? (p ++ [name]) = some .directory := ih (by simpa using hn)
    simpa using h _ (mem_of_node? (by simp) hchild)

/-! ## Walks -/

/-- Where a step from a directory leads. -/
inductive Step (p : List String) : String → List String → Prop
  | stay : Step p "." p
  | back : Step p ".." p.dropLast
  | down {name : String} : name ≠ "." → name ≠ ".." → name.utf8ByteSize ≤ 255 →
    Step p name (p ++ [name])

/-- A walk is made step by step, each one from a directory. -/
theorem walk_cons_eq_ok {name : String} :
    t.walk p (name :: names) = .ok q ↔
      t.node? p = some .directory ∧ ∃ r, Step p name r ∧ t.walk r names = .ok q := by
  constructor
  · intro h
    unfold walk at h
    split at h
    · cases h
    · cases h
    · next hp =>
      refine ⟨hp, ?_⟩
      split at h
      · next hname => exact ⟨p, hname ▸ .stay, h⟩
      · next hstay =>
        split at h
        · next hname => exact ⟨p.dropLast, hname ▸ .back, h⟩
        · next hback =>
          split at h
          · cases h
          · exact ⟨p ++ [name], .down hstay hback (by omega), h⟩
  · rintro ⟨hp, r, hr, h⟩
    rw [walk, hp]
    cases hr with
    | stay => exact h
    | back => exact h
    | down hstay hback hlen =>
      simp only [if_neg hstay, if_neg hback, if_neg (Nat.not_lt.2 hlen)]
      exact h

/-- A walk goes on where its first part has come to. -/
theorem walk_append_eq_ok {rest : List String} :
    t.walk p (names ++ rest) = .ok q ↔ ∃ r, t.walk p names = .ok r ∧ t.walk r rest = .ok q := by
  induction names generalizing p with
  | nil => simp [walk]
  | cons name names ih =>
    simp only [List.cons_append, walk_cons_eq_ok, ih]
    constructor
    · rintro ⟨hp, r, hr, r', hr', h⟩
      exact ⟨r', ⟨hp, r, hr, hr'⟩, h⟩
    · rintro ⟨r', ⟨hp, r, hr, hr'⟩, h⟩
      exact ⟨hp, r, hr, r', hr', h⟩

/-- A walk only passes through directories. -/
theorem walk_of_directories (hd : ∀ p, t.node? p = some .directory → t'.node? p = some .directory)
    (h : t.walk p names = .ok q) : t'.walk p names = .ok q := by
  induction names generalizing p with
  | nil => exact h
  | cons name names ih =>
    obtain ⟨hp, r, hr, h⟩ := walk_cons_eq_ok.1 h
    exact walk_cons_eq_ok.2 ⟨hd p hp, r, hr, ih h⟩

/-- Without steps back, a walk comes to the place that its names make. -/
theorem eq_append_of_walk (hnames : ".." ∉ names) (h : t.walk p names = .ok q) :
    q = p ++ names.filter (· ≠ ".") := by
  induction names generalizing p with
  | nil =>
    cases h
    simp
  | cons name names ih =>
    obtain ⟨-, r, hr, h⟩ := walk_cons_eq_ok.1 h
    rw [ih (fun hb => hnames (List.mem_cons_of_mem _ hb)) h]
    cases hr with
    | stay => rfl
    | back => exact absurd List.mem_cons_self hnames
    | down hstay => simp [hstay]

/-- Names of no step need not be walked. -/
theorem walk_filter (h : t.walk p names = .ok q) :
    t.walk p (names.filter (· ≠ ".")) = .ok q := by
  induction names generalizing p with
  | nil => exact h
  | cons name names ih =>
    obtain ⟨hp, r, hr, h⟩ := walk_cons_eq_ok.1 h
    by_cases hname : name = "."
    · cases hr with
      | stay => simpa using ih h
      | back => exact absurd hname (by decide)
      | down hstay => exact absurd hname hstay
    · rw [List.filter_cons_of_pos (by simpa using hname)]
      exact walk_cons_eq_ok.2 ⟨hp, r, hr, ih h⟩

/-- A walk that one tree allows can be made in another one if it leads to a
    directory there. -/
theorem WellFormed.walk_of_walk (hwf : t.WellFormed) (hnames : ".." ∉ names)
    (h : t'.walk p names = .ok q) (hq : t.node? q = some .directory) : t.walk p names = .ok q := by
  induction names generalizing p with
  | nil => exact h
  | cons name names ih =>
    have hplace := eq_append_of_walk hnames h
    obtain ⟨-, r, hr, h⟩ := walk_cons_eq_ok.1 h
    exact walk_cons_eq_ok.2 ⟨hwf.directory_of_append (hplace ▸ hq), r, hr,
      ih (fun hb => hnames (List.mem_cons_of_mem _ hb)) h⟩

/-! ## The places of paths -/

/-- The place at which a path begins. -/
def base (t : FileTree) (path : String) : List String :=
  if isAbsolute path then [] else t.here

/-- A path that can be followed: it is not empty, has no character that no path
    can have, and is not too long. -/
structure IsPath (path : String) : Prop where
  ne_empty : path ≠ ""
  no_nul : ¬path.toList.any (· = Char.ofNat 0)
  size_lt : path.utf8ByteSize < 4096

theorem locate_eq_ok {path : String} :
    t.locate path = .ok q ↔
      IsPath path ∧ t.walk (t.base path) (pathComponents path) = .ok q := by
  have hbase : (if path.toList.head? = some '/' then [] else t.here) = t.base path := by
    simp [base, isAbsolute]
  rw [locate, hbase]
  constructor
  · intro h
    split at h
    · cases h
    · next hempty =>
      split at h
      · cases h
      · next hnul =>
        split at h
        · cases h
        · exact ⟨⟨hempty, hnul, by omega⟩, h⟩
  · rintro ⟨⟨hempty, hnul, hlen⟩, h⟩
    rw [if_neg hempty, if_neg hnul, if_neg (by omega), h]

/-- A path that is written by components is followed by them. -/
theorem walk_of_locate_root_append {path : String} (hne : names ≠ [])
    (hnames : ∀ name ∈ names, IsComponent name)
    (h : t.locate ((if isAbsolute path then "/" else "") ++ String.intercalate "/" names) = .ok q) :
    t.walk (t.base path) names = .ok q := by
  obtain ⟨-, h⟩ := locate_eq_ok.1 h
  rwa [pathComponents_root_append hnames, base, isAbsolute_root_append hne hnames] at h

/-- The path of a name below a directory leads into that directory. -/
theorem locate_joinPath {dir name : String} {r : List String} (hdir : t.locate dir = .ok r)
    (hname : IsComponent name) (h : t.locate (joinPath dir name) = .ok q) : Step r name q := by
  obtain ⟨hpath, hwalk⟩ := locate_eq_ok.1 hdir
  obtain ⟨-, h⟩ := locate_eq_ok.1 h
  have hbase : t.base (joinPath dir name) = t.base dir := by
    rw [base, base, isAbsolute_joinPath hpath.ne_empty hname]
  rw [pathComponents_joinPath hpath.ne_empty hname, hbase] at h
  obtain ⟨r', hr', h⟩ := walk_append_eq_ok.1 h
  obtain rfl : r = r' := Except.ok.inj (hwalk.symm.trans hr')
  obtain ⟨-, q', hstep, hq⟩ := walk_cons_eq_ok.1 h
  cases hq
  exact hstep

theorem isDirectory_eq_true {path : String} :
    t.isDirectory path = true ↔ ∃ q, t.locate path = .ok q ∧ t.node? q = some .directory := by
  unfold isDirectory
  split
  · next q hq =>
    split <;> simp_all
  · next hq => simp [hq]

/-- Paths are followed as before in a tree that has all directories of another. -/
theorem locate_of_directories {path : String} (hhere : t'.here = t.here)
    (hd : ∀ p, t.node? p = some .directory → t'.node? p = some .directory)
    (h : t.locate path = .ok q) : t'.locate path = .ok q := by
  obtain ⟨hpath, h⟩ := locate_eq_ok.1 h
  have hbase : t'.base path = t.base path := by rw [base, base, hhere]
  exact locate_eq_ok.2 ⟨hpath, hbase ▸ walk_of_directories hd h⟩

/-- What is put where there was no directory is in nobody's way. -/
theorem locate_put {path : String} {n : Node} (hplace : t.node? place ≠ some .directory)
    (h : t.locate path = .ok q) : (t.put place n).locate path = .ok q := by
  refine locate_of_directories (t := t) rfl (fun p hp => ?_) h
  by_cases hroot : p = []
  · rw [hroot]
    rfl
  · rw [node?_put n hroot, if_neg (fun h : place = p => hplace (h ▸ hp)), hp]

/-! ## Trees that grow -/

/-- A tree has grown on the way to a place: nothing is gone, and everything new
    is on that way. -/
structure Grown (place : List String) (t t' : FileTree) : Prop where
  here : t'.here = t.here
  kept : ∀ p n, t.node? p = some n → t'.node? p = some n
  added : ∀ e ∈ t'.nodes, e ∈ t.nodes ∨ e.1 <+: place

theorem Grown.refl (place : List String) (t : FileTree) : Grown place t t :=
  ⟨rfl, fun _ _ h => h, fun _ he => .inl he⟩

theorem Grown.trans {t₁ t₂ t₃ : FileTree} (h : Grown place t₁ t₂) (h' : Grown place t₂ t₃) :
    Grown place t₁ t₃ where
  here := h'.here.trans h.here
  kept p n hp := h'.kept p n (h.kept p n hp)
  added e he := (h'.added e he).elim (h.added e) .inr

theorem Grown.walk (h : Grown place t t') (hw : t.walk p names = .ok q) :
    t'.walk p names = .ok q :=
  walk_of_directories (fun p => h.kept p .directory) hw

theorem Grown.base (h : Grown place t t') (path : String) : t'.base path = t.base path := by
  rw [FileTree.base, FileTree.base, h.here]

/-- However a tree grows on the way to a place, a path only leads to something
    new there that is on this way. -/
def LeadsTo (t : FileTree) (path : String) (place : List String) : Prop :=
  ∀ t' q, Grown place t t' → t'.locate path = .ok q → t'.node? q = none → q <+: place

theorem LeadsTo.of_grown {path : String} (h : t.LeadsTo path place) (hg : Grown place t t') :
    t'.LeadsTo path place :=
  fun t₁ q hg₁ => h t₁ q (hg.trans hg₁)

/-- A path aims at a place: its first names lead somewhere, and from there on it
    has no steps back. -/
def AimsAt (t : FileTree) (path : String) (place : List String) : Prop :=
  ∃ names rest r, pathComponents path = names ++ rest ∧ ".." ∉ rest ∧
    t.walk (t.base path) names = .ok r ∧ place = r ++ rest.filter (· ≠ ".")

theorem aimsAt_of_not_mem {path : String} (h : ".." ∉ pathComponents path) :
    t.AimsAt path (t.base path ++ (pathComponents path).filter (· ≠ ".")) :=
  ⟨[], pathComponents path, t.base path, rfl, h, rfl, rfl⟩

namespace AimsAt

variable {path : String}

theorem eq_of_locate (h : t.AimsAt path place) (hg : Grown place t t')
    (hq : t'.locate path = .ok q) : q = place := by
  obtain ⟨names, rest, r, hpath, hback, hwalk, rfl⟩ := h
  obtain ⟨-, hq⟩ := locate_eq_ok.1 hq
  rw [hpath, hg.base] at hq
  obtain ⟨r', hr', hq⟩ := walk_append_eq_ok.1 hq
  obtain rfl : r = r' := Except.ok.inj ((hg.walk hwalk).symm.trans hr')
  exact eq_append_of_walk hback hq

theorem leadsTo (h : t.AimsAt path place) : t.LeadsTo path place :=
  fun _ _ hg hq _ => h.eq_of_locate hg hq ▸ List.prefix_refl _

/-- The directories of a path lead to the place it aims at. -/
theorem leadsTo_components (h : t.AimsAt path place) {l : List String} (hne : l ≠ [])
    (hl : l <+: (pathComponents path).filter (· ≠ ".")) :
    t.LeadsTo ((if isAbsolute path then "/" else "") ++ String.intercalate "/" l) place := by
  intro t' q hg hq hnone
  have hnames : ∀ name ∈ l, IsComponent name := fun name hn =>
    isComponent_of_mem (List.mem_filter.1 (hl.mem hn)).1
  have hq := walk_of_locate_root_append hne hnames hq
  obtain ⟨names, rest, r, hpath, hback, hwalk, rfl⟩ := h
  rw [hg.base] at hq
  rw [hpath, List.filter_append] at hl
  have hwalk := hg.walk (walk_filter hwalk)
  rcases List.prefix_or_prefix_of_prefix hl (List.prefix_append _ _) with hl' | ⟨l', rfl⟩
  · -- Up to where the first names lead, there is nothing new.
    obtain ⟨tail, htail⟩ := hl'
    rw [← htail] at hwalk
    obtain ⟨q', hq', hwalk⟩ := walk_append_eq_ok.1 hwalk
    obtain rfl : q = q' := Except.ok.inj (hq.symm.trans hq')
    cases tail with
    | nil =>
      cases hwalk
      exact List.prefix_append _ _
    | cons name tail =>
      rw [(walk_cons_eq_ok.1 hwalk).1] at hnone
      cases hnone
  · obtain ⟨r', hr', hq⟩ := walk_append_eq_ok.1 hq
    obtain rfl : r = r' := Except.ok.inj (hwalk.symm.trans hr')
    have hl' : l' <+: rest.filter (· ≠ ".") := (List.prefix_append_right_inj _).1 hl
    have hmem := fun name (hn : name ∈ l') => List.mem_filter.1 (hl'.mem hn)
    rw [eq_append_of_walk (fun hb => hback (hmem _ hb).1) hq,
      List.filter_eq_self.2 fun name hn => (hmem name hn).2]
    exact (List.prefix_append_right_inj _).2 hl'

/-- A path can be followed where it aims at a directory. -/
theorem locate_of_directory (h : t.AimsAt path place) (hwf : t.WellFormed)
    (hg : Grown place t t') (hq : t'.locate path = .ok q) (hn : t.node? q = some .directory) :
    t.locate path = .ok q := by
  obtain ⟨names, rest, r, hpath, hback, hwalk, -⟩ := h
  obtain ⟨hp, hq⟩ := locate_eq_ok.1 hq
  rw [hpath, hg.base] at hq
  obtain ⟨r', hr', hq⟩ := walk_append_eq_ok.1 hq
  obtain rfl : r = r' := Except.ok.inj ((hg.walk hwalk).symm.trans hr')
  refine locate_eq_ok.2 ⟨hp, ?_⟩
  rw [hpath]
  exact walk_append_eq_ok.2 ⟨r, hwalk, hwf.walk_of_walk hback hq hn⟩

end AimsAt

theorem createDirectory_eq_ok {path : String} :
    t.createDirectory path = .ok t' ↔
      ∃ q, t.locate path = .ok q ∧ t.node? q = none ∧ t' = t.put q .directory := by
  unfold createDirectory
  cases t.locate path with
  | error e => simp
  | ok q =>
    cases hq : t.node? q with
    | none => simp [hq, eq_comm]
    | some n => simp [hq]

theorem grown_put (hq : t.node? q = none) (hplace : q <+: place) :
    Grown place t (t.put q .directory) where
  here := rfl
  kept p n hp := by
    by_cases hroot : p = []
    · rw [hroot] at hp ⊢
      exact hp
    · have hne : q ≠ p := fun h => by simp [h ▸ hq] at hp
      rw [node?_put _ hroot, if_neg hne, hp]
  added e he := by
    rcases List.mem_cons.1 he with rfl | he
    · exact .inr hplace
    · exact .inl (List.mem_filter.1 he).1

theorem write_eq_ok {path : String} {content : ByteArray} :
    t.write path content = .ok t' ↔
      ∃ q, t.locate path = .ok q ∧ t.node? q ≠ some .directory ∧
        t' = t.put q (.file content) := by
  unfold write
  cases t.locate path with
  | error e => simp
  | ok q =>
    cases hq : t.node? q with
    | none => simp [hq, eq_comm]
    | some n => cases n <;> simp [hq, eq_comm]

/-- What was written is read. -/
theorem read_of_write {path : String} {content : ByteArray} (h : t.write path content = .ok t') :
    t'.read path = .ok content := by
  obtain ⟨q, hq, hnode, rfl⟩ := write_eq_ok.1 h
  have hroot : q ≠ [] := fun h => hnode (by rw [h]; rfl)
  rw [read, locate_put hnode hq]
  simp [node?_put _ hroot]

end FileTree

/-! ## New directories -/

namespace Files

open FileTree

variable {t : FileTree} {place : List String} {path : String}

theorem bind_apply {α β : Type} (x : StateM FileTree α) (f : α → StateM FileTree β)
    (t : FileTree) : (x >>= f) t = f (x t).1 (x t).2 := rfl

/-- A directory is created, unless it exists. -/
theorem settle_apply (path : String) (t : FileTree) :
    (createAfter.settle path : StateM FileTree _) t = match t.createDirectory path with
      | .ok t' => (.ok (), t')
      | .error e => (if t.isDirectory path then .ok () else .error e, t) := by
  simp only [createAfter.settle, bind_apply, Files.createDirectory, change]
  cases t.createDirectory path with
  | ok t' => rfl
  | error e =>
    change (if t.isDirectory path then (pure (.ok ()) : StateM FileTree (Except FileError Unit))
      else pure (.error e)) t = (if t.isDirectory path then .ok () else .error e, t)
    by_cases hd : t.isDirectory path
    · rw [if_pos hd, if_pos hd]
      rfl
    · rw [if_neg hd, if_neg hd]
      rfl

theorem createAfter_apply (path : String) (parent : StateM FileTree (Except FileError Unit))
    (t : FileTree) :
    createAfter path parent t = match createAfter.settle (m := StateM FileTree) path t with
      | (.error .notFound, t₁) =>
        match parent t₁ with
        | (.error e, t₂) => (.error e, t₂)
        | (.ok _, t₂) => createAfter.settle (m := StateM FileTree) path t₂
      | result => result := by
  simp only [createAfter, bind_apply]
  rcases createAfter.settle (m := StateM FileTree) path t with ⟨e | _, t₁⟩
  · cases e with
    | notFound =>
      simp only [bind_apply]
      rcases parent t₁ with ⟨e | _, t₂⟩ <;> rfl
    | _ => rfl
  · rfl

theorem grown_settle (h : t.LeadsTo path place) :
    Grown place t (createAfter.settle (m := StateM FileTree) path t).2 := by
  rw [settle_apply]
  cases hc : t.createDirectory path with
  | ok t' =>
    obtain ⟨q, hq, hnone, rfl⟩ := createDirectory_eq_ok.1 hc
    exact grown_put hnone (h t q (.refl place t) hq hnone)
  | error e => exact .refl place t

theorem isDirectory_of_settle {t' : FileTree}
    (h : createAfter.settle (m := StateM FileTree) path t = (.ok (), t')) :
    t'.isDirectory path = true := by
  rw [settle_apply] at h
  cases hc : t.createDirectory path with
  | ok t₁ =>
    rw [hc] at h
    cases h
    obtain ⟨q, hq, hnone, rfl⟩ := createDirectory_eq_ok.1 hc
    have hroot : q ≠ [] := fun h => by simp [h, node?] at hnone
    refine isDirectory_eq_true.2 ⟨q, locate_put (by simp [hnone]) hq, ?_⟩
    rw [node?_put _ hroot, if_pos rfl]
  | error e =>
    rw [hc] at h
    obtain ⟨hd, rfl⟩ := Prod.mk.inj h
    by_cases hdir : t.isDirectory path
    · exact hdir
    · rw [if_neg hdir] at hd
      cases hd

theorem grown_createAfter {parent : StateM FileTree (Except FileError Unit)}
    (h : t.LeadsTo path place)
    (hparent : ∀ t₁, Grown place t t₁ → Grown place t₁ (parent t₁).2) :
    Grown place t (createAfter path parent t).2 := by
  have hs := grown_settle h
  rw [createAfter_apply]
  split
  · next t₁ hfirst =>
    rw [hfirst] at hs
    have hp := hparent t₁ hs
    split
    · next hr =>
      rw [hr] at hp
      exact hs.trans hp
    · next t₂ hr =>
      rw [hr] at hp
      exact (hs.trans hp).trans (grown_settle (h.of_grown (hs.trans hp)))
  · exact hs

theorem isDirectory_of_createAfter {parent : StateM FileTree (Except FileError Unit)}
    {t' : FileTree} (h : createAfter path parent t = (.ok (), t')) :
    t'.isDirectory path = true := by
  rw [createAfter_apply] at h
  split at h
  · split at h
    · cases h
    · exact isDirectory_of_settle h
  · exact isDirectory_of_settle h

theorem grown_createComponents {root : String} {names : List String} (t : FileTree)
    (h : ∀ l, l <:+ names → l ≠ [] →
      t.LeadsTo (root ++ String.intercalate "/" l.reverse) place) :
    Grown place t (createComponents (m := StateM FileTree) root names t).2 := by
  induction names generalizing t with
  | nil => exact .refl place t
  | cons name parents ih =>
    refine grown_createAfter (h _ (List.suffix_refl _) (List.cons_ne_nil _ _)) fun t₁ hg => ih t₁ ?_
    exact fun l hl hne => (h l (hl.trans (List.suffix_cons ..)) hne).of_grown hg

/-- The directories that are made for a path are on the way to the place it aims
    at. -/
theorem grown_createDirectories (h : t.AimsAt path place) :
    Grown place t (createDirectories (m := StateM FileTree) path t).2 := by
  have hroot : (if path.toList.head? = some '/' then "/" else "") =
      (if isAbsolute path then "/" else "") := by simp [isAbsolute]
  refine grown_createAfter h.leadsTo fun t₁ hg => grown_createComponents t₁ fun l hl hne => ?_
  have hprefix : l.reverse <+: (pathComponents path).filter (· ≠ ".") := by
    simpa using List.reverse_prefix.2 (hl.trans (List.tail_suffix _))
  rw [hroot]
  exact (h.leadsTo_components (by simpa using hne) hprefix).of_grown hg

end Files

namespace FileTree

variable {t t₁ t₂ : FileTree} {place : List String} {dir name : String} {content : ByteArray}

/-- A directory that was made with a file in it has nothing else in it. -/
theorem names_of_created (hwf : t.WellFormed) (haim : t.AimsAt dir place)
    (hnew : t.isDirectory dir = false) (hgrown : Grown place t t₁)
    (hdir : t₁.isDirectory dir = true) (hname : IsComponent name) (hstay : name ≠ ".")
    (hback : name ≠ "..") (hwrite : t₁.write (joinPath dir name) content = .ok t₂) :
    t₂.isDirectory dir = true ∧ t₂.names dir = [name] := by
  obtain ⟨q, hq, hqdir⟩ := isDirectory_eq_true.1 hdir
  obtain rfl := haim.eq_of_locate hgrown hq
  have hnone : t.node? q = none := by
    match hn : t.node? q with
    | none => rfl
    | some (.file content) => simp [hgrown.kept q _ hn] at hqdir
    | some .directory =>
      have hold := isDirectory_eq_true.2 ⟨q, haim.locate_of_directory hwf hgrown hq hn, hn⟩
      simp [hnew] at hold
  have hroot : q ≠ [] := fun h => by simp [h, node?] at hnone
  have hempty : ∀ e ∈ t₁.nodes, e.1.dropLast ≠ q := by
    intro e he hparent
    rcases hgrown.added e he with he | he
    · simp [← hparent, hwf e he] at hnone
    · have hlen := he.length_le
      rw [← hparent, List.length_dropLast] at hlen
      have hnil : e.1 = [] := List.eq_nil_of_length_eq_zero (by omega)
      exact hroot (by rw [← hparent, hnil]; rfl)
  obtain ⟨q', hq', hnode, rfl⟩ := write_eq_ok.1 hwrite
  obtain rfl : q' = q ++ [name] := by
    cases locate_joinPath hq hname hq' with
    | stay => exact absurd rfl hstay
    | back => exact absurd rfl hback
    | down => rfl
  have hq₂ := locate_put (n := .file content) hnode hq
  refine ⟨isDirectory_eq_true.2 ⟨q, hq₂, ?_⟩, ?_⟩
  · rw [node?_put _ hroot, if_neg (by simp), hqdir]
  · rw [names, hq₂]
    simpa [put] using fun p n he _ hparent => absurd hparent (hempty (p, n) he)

end FileTree

end SimpleBatch
