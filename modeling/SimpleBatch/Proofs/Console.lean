import SimpleBatch.Console
import SimpleBatch.Proofs.FileTree
import SimpleBatch.Proofs.Session

/-!
# The console program

The program is the run of a script with something before it and after it. What
goes before depends on the files only: the folder of the scripts is made sure of
(`Console.ensure`), and the script is read. The run takes the course that it
takes with any host, and its calls are those that `Host.trace` keeps; so what is
shown, and what comes after, is a matter of that run (`Console.run?_of_text`).

* `Console.made_of_ensure`: what is in a folder that was not there before;
* `Console.code_eq_zero_iff`: what the exit code says;
* `Console.process_refines`: what the whole program does, for scripts that
  clear nothing and run no commands.
-/

namespace SimpleBatch

open Text

/-! ## Files as texts -/

namespace FileTree

/-- The content of a file as text. -/
def text (t : FileTree) (path : String) : Except FileError String :=
  match t.read path with
  | .error e => .error e
  | .ok bytes =>
    match String.fromUTF8? bytes with
    | some text => .ok text
    | none => .error .notText

theorem text_of_read {t : FileTree} {path text : String} (h : t.read path = .ok text.toUTF8) :
    t.text path = .ok text := by
  have htext : String.fromUTF8? text.toUTF8 = some text := dif_pos text.isValidUTF8
  simp only [FileTree.text, h, htext]

end FileTree

theorem Files.readText_apply (path : String) (t : FileTree) :
    (Files.readText path : StateM FileTree _) t = (t.text path, t) := by
  have hread : (Files.read path : StateM FileTree _) t = (t.read path, t) := rfl
  simp only [Files.readText, bind_apply, hread, FileTree.text]
  cases t.read path with
  | error e => rfl
  | ok bytes => cases h : String.fromUTF8? bytes <;> simp [h] <;> rfl

/-! ## What calls say -/

namespace Call

/-- The text that a call has for the output. -/
def output? : Call → Option String
  | .log .info text => some text
  | .echo line => some line
  | _ => none

/-- The text that a call has for the messages. -/
def message? : Call → Option String
  | .log .warning text => some ("warning: " ++ text)
  | .log .error text => some ("error: " ++ text)
  | _ => none

end Call

/-- Texts, each as a line. -/
def unlines (texts : List String) : String :=
  String.join (texts.map (· ++ "\n"))

theorem unlines_append (texts texts' : List String) :
    unlines (texts ++ texts') = unlines texts ++ unlines texts' := by
  simp [unlines]

/-- A program ends with an exit code and has shown lines on its output and among
    its messages. -/
structure Exit.Shows (e : Exit) (code : Nat) (output messages : List String) : Prop where
  code_eq : e.code = code
  output_eq : e.output = unlines output
  messages_eq : e.messages = unlines messages

/-- What has become of a host that echoes into its log is told by the calls that
    `Host.trace` keeps. -/
theorem Program.host_trace {σ : Type} (p : Program) (host : Host σ)
    (h : host.echo = host.log .info) (setup : Setup) (invocation : Invocation) (fuel : Nat)
    (s : σ) :
    (p.resume host fuel (.start setup invocation s)).host =
      host.performAll (p.resume Host.trace fuel (.start setup invocation #[])).host.toList s := by
  rw [p.host_start host Host.trace setup invocation fuel s #[],
    p.host_start Host.trace Host.trace setup invocation fuel #[] #[],
    Host.toList_performAll_trace, Host.performAll_logged h]
  rfl

/-! ## Requests -/

namespace CommandLine.Request

variable (r : Request) (start : Start)

/-- The invocation of a request. -/
def invocation : Invocation :=
  .parse r.line

/-- The folder of the scripts for a request. -/
def folder : ScriptFolder :=
  { dir := ScriptFolder.locate r.dir start.surroundings
    environment := r.environment start.now }

/-- What the run for a request does not take from its invocation. -/
def setup : Setup :=
  { environment := r.environment start.now
    seed := r.seed.getD start.clockSeed }

/-- A script that is ready to run for a request. -/
def ready (program : Program) : Ready :=
  { program
    invocation := r.invocation
    setup := r.setup start
    dumpMemory := r.dumpMemory }

end CommandLine.Request

namespace Console

variable {t t' : FileTree} {folder : ScriptFolder}

/-! ## Before the run -/

/-- An existing folder is left alone. -/
theorem ensure_of_isDirectory (h : t.isDirectory folder.dir = true) :
    (ensure folder : StateM FileTree _) t = (.ok (), t) := by
  have hdir : (Files.isDirectory folder.dir : StateM FileTree Bool) t = (true, t) :=
    congrArg (·, t) h
  simp only [ensure, Files.bind_apply, hdir]
  rfl

/-- A folder that does not exist is made, and gets its first script. -/
theorem ensure_of_not_isDirectory (h : t.isDirectory folder.dir = false) :
    (ensure folder : StateM FileTree _) t =
      match (Files.createDirectories folder.dir : StateM FileTree _) t with
      | (.error e, t₁) => (.error e, t₁)
      | (.ok _, t₁) =>
        match t₁.write (folder.path "HELLO") ScriptFolder.hello.toUTF8 with
        | .ok t₂ => (.ok (), t₂)
        | .error e => (.error e, t₁) := by
  have hdir : (Files.isDirectory folder.dir : StateM FileTree Bool) t = (false, t) :=
    congrArg (·, t) h
  simp only [ensure, Files.bind_apply, hdir, Bool.false_eq_true, if_false]
  rcases (Files.createDirectories folder.dir : StateM FileTree _) t with ⟨e | _, t₁⟩ <;> rfl

/-- A folder that was not there has the first script in it and, if its path takes
    steps back only in directories that were there, nothing else. -/
theorem made_of_ensure (hext : folder.extension = "SB") (hwf : t.WellFormed)
    (hnew : t.isDirectory folder.dir = false)
    (h : (ensure folder : StateM FileTree _) t = (.ok (), t')) :
    t'.text (folder.path "HELLO") = .ok ScriptFolder.hello ∧
      ∀ place, t.AimsAt folder.dir place →
        t'.isDirectory folder.dir = true ∧ t'.names folder.dir = ["HELLO.SB"] := by
  rw [ensure_of_not_isDirectory hnew] at h
  split at h
  · cases h
  · next t₁ hcreate =>
    split at h
    · next t₂ hwrite =>
      cases h
      refine ⟨FileTree.text_of_read (FileTree.read_of_write hwrite), fun place haim => ?_⟩
      have hgrown := Files.grown_createDirectories haim
      rw [hcreate] at hgrown
      have hname : IsComponent "HELLO.SB" := ⟨by decide, by decide⟩
      have hjoin : folder.path "HELLO" = joinPath folder.dir "HELLO.SB" := by
        rw [ScriptFolder.path, hext]
        rfl
      exact FileTree.names_of_created hwf haim hnew hgrown
        (Files.isDirectory_of_createAfter hcreate) hname (by decide) (by decide) (hjoin ▸ hwrite)
    · cases h

theorem load_apply (folder : ScriptFolder) (name : String) (t : FileTree) :
    (load folder name : StateM FileTree _) t =
      match (ensure folder : StateM FileTree _) t with
      | (.error e, t') =>
        (.error (failure ("cannot create " ++ folder.dir ++ ": " ++ e.message)), t')
      | (.ok _, t') =>
        match t'.text (folder.path name) with
        | .error e =>
          (.error (failure ("Simple Batch program \"" ++ name ++ "\" not found (" ++
            folder.path name ++ "): " ++ e.message)), t')
        | .ok source => (.ok (.ofSource source), t') := by
  simp only [load, Files.bind_apply]
  rcases (ensure folder : StateM FileTree _) t with ⟨e | _, t'⟩
  · rfl
  · simp only [Files.bind_apply, Files.readText_apply]
    cases t'.text (folder.path name) <;> rfl

/-- All that comes before the run of a script. -/
theorem prepare_apply {start : Start} {request : CommandLine.Request}
    (h : CommandLine.parse start.words = .ok request) (t : FileTree) :
    (prepare start : StateM FileTree _) t =
      match (ensure (request.folder start) : StateM FileTree _) t with
      | (.error e, t') =>
        (.error (failure ("cannot create " ++ (request.folder start).dir ++ ": " ++ e.message)), t')
      | (.ok _, t') =>
        match t'.text ((request.folder start).path request.invocation.name) with
        | .error e =>
          (.error (failure ("Simple Batch program \"" ++ request.invocation.name ++
            "\" not found (" ++ (request.folder start).path request.invocation.name ++ "): " ++
              e.message)), t')
        | .ok source => (.ok (request.ready start (.ofSource source)), t') := by
  have hload := load_apply (request.folder start) request.invocation.name t
  simp only [prepare, h]
  change (load (request.folder start) request.invocation.name >>= _ : StateM FileTree _) t = _
  rw [Files.bind_apply, hload]
  rcases (ensure (request.folder start) : StateM FileTree _) t with ⟨e | _, t'⟩
  · rfl
  · cases ht : t'.text ((request.folder start).path request.invocation.name) <;> simp [ht] <;> rfl

/-! ## During the run -/

/-- The line that is shown for a call, if it is one. -/
def line? (c : Call) : Option Shown :=
  (c.output?.map outputLine).or (c.message?.map messageLine)

/-- A call is shown as a line, unless it clears the log or runs a command. -/
theorem isSome_line? {c : Call} (hclear : c ≠ .clear) (hexecute : ∀ command, c ≠ .execute command) :
    (line? c).isSome := by
  cases c with
  | log level text => cases level <;> rfl
  | echo line => rfl
  | clear => exact absurd rfl hclear
  | execute command => exact absurd rfl (hexecute command)

theorem perform_of_line? {c : Call} {line : Shown} (h : line? c = some line) (s : State) :
    host.perform c s = { s with shown := s.shown.push line } := by
  cases c with
  | log level text => cases level <;> cases h <;> rfl
  | echo text => cases h; rfl
  | clear => cases h
  | execute command => cases h

/-- Calls that are shown as lines leave the files alone. -/
theorem performAll_of_lines {calls : List Call} (h : ∀ c ∈ calls, (line? c).isSome) (s : State) :
    (host.performAll calls s).files = s.files ∧
      (host.performAll calls s).shown.toList = s.shown.toList ++ calls.filterMap line? := by
  induction calls generalizing s with
  | nil => exact ⟨rfl, (List.append_nil _).symm⟩
  | cons c calls ih =>
    obtain ⟨line, hc⟩ := Option.isSome_iff_exists.1 (h c List.mem_cons_self)
    have ih := ih (fun c hc => h c (List.mem_cons_of_mem _ hc)) (host.perform c s)
    have hcons : host.performAll (c :: calls) s = host.performAll calls (host.perform c s) := rfl
    rw [hcons, List.filterMap_cons_some hc]
    rw [perform_of_line? hc] at ih ⊢
    simpa using ih

theorem shown_line? (c : Call) (rest : List Shown) (code : Nat) :
    let e : Exit := { code, shown := (line? c).toList ++ rest }
    let e' : Exit := { code, shown := rest }
    e.output = unlines c.output?.toList ++ e'.output ∧
      e.messages = unlines c.message?.toList ++ e'.messages := by
  cases c with
  | log level text =>
    cases level <;> simp [line?, Call.output?, Call.message?, Exit.output, Exit.messages, unlines,
      outputLine, messageLine]
  | _ => simp [line?, Call.output?, Call.message?, Exit.output, Exit.messages, unlines, outputLine]

/-- What calls say is shown in their order. -/
theorem shows_lines (calls : List Call) {e : Exit} {code : Nat} {output messages : List String}
    (h : e.Shows code output messages) :
    Exit.Shows { e with shown := calls.filterMap line? ++ e.shown } code
      (calls.filterMap Call.output? ++ output) (calls.filterMap Call.message? ++ messages) := by
  induction calls with
  | nil => exact h
  | cons c calls ih =>
    have hcons : ∀ {β : Type} (f : Call → Option β),
        (c :: calls).filterMap f = (f c).toList ++ calls.filterMap f := by
      intro β f
      cases h : f c <;> simp [h]
    obtain ⟨ho, hm⟩ := shown_line? c (calls.filterMap line? ++ e.shown) e.code
    simp only [hcons, List.append_assoc]
    refine ⟨ih.code_eq, ?_, ?_⟩
    · rw [ho, ih.output_eq, ← unlines_append]
    · rw [hm, ih.messages_eq, ← unlines_append]

/-! ## After the run -/

theorem shows_completion (ready : Ready) (milliseconds : Nat) (memory : Memory) :
    (completion ready milliseconds memory).Shows 0
      (("Execution of Simple Batch Program \"" ++ ready.invocation.name ++ "\" completed in " ++
        ofNat milliseconds ++ " ms") :: if ready.dumpMemory then [memory.dump] else []) [] := by
  refine ⟨rfl, ?_, ?_⟩ <;>
    cases h : ready.dumpMemory <;>
      simp [completion, h, Exit.output, Exit.messages, outputLine, unlines]

theorem shows_breakdown (ready : Ready) (e : ScriptError) :
    (breakdown ready e).Shows 1 [] ["sbat: " ++ ready.invocation.name ++ ": " ++ e.message] := by
  refine ⟨rfl, rfl, ?_⟩
  simp [breakdown, failure, Exit.messages, messageLine, unlines, String.append_assoc]

/-- The end of the program depends on the course of a run only. -/
theorem close?_eq {σ τ : Type} {x : Progress σ} {y : Progress τ} (h : x.outcome = y.outcome)
    (ready : Ready) (milliseconds : Nat) :
    close? ready milliseconds x = close? ready milliseconds y := by
  cases x <;> cases y <;> simp_all [Progress.outcome, close?, Run.course]

theorem code_eq_zero {σ : Type} {x : Progress σ} (ready : Ready) (milliseconds : Nat) :
    (∃ exit, close? ready milliseconds x = some exit ∧ exit.code = 0) ↔ ∃ r, x = .finished r := by
  cases x <;> simp [close?, completion, breakdown, failure]

/-! ## The whole program -/

section Process

variable {start : Start} {request : CommandLine.Request} {files made : FileTree}
  {source : String} {e : FileError} {fuel : Nat} {x : Progress (Array Call)}

theorem run?_of_not_ensured (hparse : CommandLine.parse start.words = .ok request)
    (hmade : (ensure (request.folder start) : StateM FileTree _) files = (.error e, made))
    (fuel milliseconds : Nat) :
    run? fuel start milliseconds files =
      some (failure ("cannot create " ++ (request.folder start).dir ++ ": " ++ e.message),
        made) := by
  rw [run?, StateT.run, prepare_apply hparse, hmade]

theorem run?_of_not_text (hparse : CommandLine.parse start.words = .ok request)
    (hmade : (ensure (request.folder start) : StateM FileTree _) files = (.ok (), made))
    (htext : made.text ((request.folder start).path request.invocation.name) = .error e)
    (fuel milliseconds : Nat) :
    run? fuel start milliseconds files =
      some (failure ("Simple Batch program \"" ++ request.invocation.name ++ "\" not found (" ++
        (request.folder start).path request.invocation.name ++ "): " ++ e.message), made) := by
  simp only [run?, StateT.run, prepare_apply hparse, hmade, htext]

/-- With a script that can be read, the program takes the course of the run with
    a host that keeps its calls, and shows what is to be shown for these. -/
theorem run?_of_text (hparse : CommandLine.parse start.words = .ok request)
    (hmade : (ensure (request.folder start) : StateM FileTree _) files = (.ok (), made))
    (htext : made.text ((request.folder start).path request.invocation.name) = .ok source)
    (hx : (Program.ofSource source).resume Host.trace fuel
      (.start (request.setup start) request.invocation #[]) = x) (milliseconds : Nat) :
    run? fuel start milliseconds files =
      (close? (request.ready start (.ofSource source)) milliseconds x).map fun exit =>
        let s := host.performAll x.host.toList { files := made }
        ({ exit with shown := s.shown.toList ++ exit.shown }, s.files) := by
  subst hx
  have hclose := close?_eq ((Program.ofSource source).outcome_start host Host.trace
    (request.setup start) request.invocation fuel { files := made } #[])
    (request.ready start (.ofSource source)) milliseconds
  rw [← Program.host_trace _ host rfl, ← hclose]
  simp only [run?, StateT.run, prepare_apply hparse, hmade, htext]
  rfl

/-- With a script that only says something, the files stay, and what it says is
    shown line by line. -/
theorem run?_of_lines (hparse : CommandLine.parse start.words = .ok request)
    (hmade : (ensure (request.folder start) : StateM FileTree _) files = (.ok (), made))
    (htext : made.text ((request.folder start).path request.invocation.name) = .ok source)
    (hx : (Program.ofSource source).resume Host.trace fuel
      (.start (request.setup start) request.invocation #[]) = x)
    (hlines : ∀ c ∈ x.host.toList, c ≠ .clear ∧ ∀ command, c ≠ .execute command)
    (milliseconds : Nat) :
    run? fuel start milliseconds files =
      (close? (request.ready start (.ofSource source)) milliseconds x).map fun exit =>
        ({ exit with shown := x.host.toList.filterMap line? ++ exit.shown }, made) := by
  obtain ⟨hfiles, hshown⟩ := performAll_of_lines
    (fun c hc => isSome_line? (hlines c hc).1 (hlines c hc).2) { files := made }
  simp only [run?_of_text hparse hmade htext hx, hfiles, hshown]
  rfl

/-- The exit code tells whether there was a script to run, and whether its run
    ended well. -/
theorem code_eq_zero_iff (hparse : CommandLine.parse start.words = .ok request)
    (hmade : (ensure (request.folder start) : StateM FileTree _) files = (.ok (), made))
    (fuel milliseconds : Nat) :
    (∃ exit final, run? fuel start milliseconds files = some (exit, final) ∧ exit.code = 0) ↔
      ∃ source r, made.text ((request.folder start).path request.invocation.name) = .ok source ∧
        (Program.ofSource source).resume Host.trace fuel
          (.start (request.setup start) request.invocation #[]) = .finished r := by
  constructor
  · rintro ⟨exit, final, hend, hcode⟩
    cases htext : made.text ((request.folder start).path request.invocation.name) with
    | error e =>
      rw [run?_of_not_text hparse hmade htext] at hend
      cases hend
      cases hcode
    | ok source =>
      rw [run?_of_text hparse hmade htext rfl, Option.map_eq_some_iff] at hend
      obtain ⟨exit', hclose, hexit⟩ := hend
      cases hexit
      obtain ⟨r, hr⟩ := (code_eq_zero _ milliseconds).1 ⟨exit', hclose, hcode⟩
      exact ⟨source, r, rfl, hr⟩
  · rintro ⟨source, r, htext, hr⟩
    obtain ⟨exit, hclose, hcode⟩ :=
      (code_eq_zero (request.ready start (.ofSource source)) milliseconds).2 ⟨r, rfl⟩
    rw [run?_of_text hparse hmade htext hr]
    exact ⟨_, _, Option.map_eq_some_iff.2 ⟨exit, hclose, rfl⟩, hcode⟩

/-- The program refines the run of its script.

    Let a command line be accepted, and let the files be a well-formed tree. A
    folder of scripts that exists is left as it is. One that does not exist gets
    the first script, and has nothing else if its path has no steps back, or takes
    them in directories that were there. If the folder cannot be made, the program
    says so and runs nothing.

    Otherwise the program exits with 0 exactly if the script can be read as text
    and its run ends well; the run is that with `Host.trace`, where echoed lines
    are lines of the log. A script that cannot be read is reported. A script that
    can be read, clears nothing and runs no commands leaves the files alone. The
    program ends when its run does: the output has the texts for the output in the
    order of the calls, then, only after a run that ended well, the line on its
    completion and, if asked for, the memory; the messages have the warnings and
    errors in the order of the calls, then the fault, if there was one. -/
theorem process_refines (hparse : CommandLine.parse start.words = .ok request)
    (hwf : files.WellFormed) {ensured : Except FileError Unit}
    (hmade : (ensure (request.folder start) : StateM FileTree _) files = (ensured, made))
    (fuel milliseconds : Nat) :
    let folder := request.folder start
    let name := request.invocation.name
    let result := run? fuel start milliseconds files
    (files.isDirectory folder.dir = true → ensured = .ok () ∧ made = files) ∧
    (files.isDirectory folder.dir = false → ensured = .ok () →
      made.text (folder.path "HELLO") = .ok ScriptFolder.hello ∧
      (".." ∉ pathComponents folder.dir ∨ (∃ place, files.AimsAt folder.dir place) →
        made.isDirectory folder.dir = true ∧ made.names folder.dir = ["HELLO.SB"])) ∧
    (∀ e, ensured = .error e →
      result = some (failure ("cannot create " ++ folder.dir ++ ": " ++ e.message), made)) ∧
    (ensured = .ok () →
      (∀ e, made.text (folder.path name) = .error e →
        result = some (failure ("Simple Batch program \"" ++ name ++ "\" not found (" ++
          folder.path name ++ "): " ++ e.message), made)) ∧
      ((∃ exit final, result = some (exit, final) ∧ exit.code = 0) ↔
        ∃ source r, made.text (folder.path name) = .ok source ∧
          (Program.ofSource source).resume Host.trace fuel
            (.start (request.setup start) request.invocation #[]) = .finished r) ∧
      ∀ source, made.text (folder.path name) = .ok source →
        let x := (Program.ofSource source).resume Host.trace fuel
          (.start (request.setup start) request.invocation #[])
        let output := x.host.toList.filterMap Call.output?
        let messages := x.host.toList.filterMap Call.message?
        (∀ call ∈ x.host.toList, call ≠ .clear ∧ ∀ command, call ≠ .execute command) →
        (∀ r, x = .running r → result = none) ∧
        (∀ r, x = .finished r → ∃ exit, result = some (exit, made) ∧
          exit.Shows 0
            (output ++ ("Execution of Simple Batch Program \"" ++ name ++ "\" completed in " ++
              ofNat milliseconds ++ " ms") ::
                if request.dumpMemory then [r.machine.memory.dump] else [])
            messages) ∧
        ∀ e r, x = .failed e r → ∃ exit, result = some (exit, made) ∧
          exit.Shows 1 output (messages ++ ["sbat: " ++ name ++ ": " ++ e.message])) := by
  intro folder name result
  refine ⟨fun hdir => ?_, fun hnew hok => ?_, fun e he => ?_, fun hok =>
    ⟨fun e he => ?_, ?_, fun source hsource => ?_⟩⟩
  · rw [ensure_of_isDirectory hdir] at hmade
    cases hmade
    exact ⟨rfl, rfl⟩
  · obtain ⟨htext, hnames⟩ := made_of_ensure rfl hwf hnew (hok ▸ hmade)
    refine ⟨htext, ?_⟩
    rintro (hpath | ⟨place, haim⟩)
    · exact hnames _ (FileTree.aimsAt_of_not_mem hpath)
    · exact hnames place haim
  · exact run?_of_not_ensured hparse (he ▸ hmade) fuel milliseconds
  · exact run?_of_not_text hparse (hok ▸ hmade) he fuel milliseconds
  · exact code_eq_zero_iff hparse (hok ▸ hmade) fuel milliseconds
  · intro x output messages hlines
    let ready := request.ready start (.ofSource source)
    have hend : result = (close? ready milliseconds x).map fun exit =>
        ({ exit with shown := x.host.toList.filterMap line? ++ exit.shown }, made) :=
      run?_of_lines hparse (hok ▸ hmade) hsource rfl hlines milliseconds
    refine ⟨fun r hx => ?_, fun r hx => ?_, fun e r hx => ?_⟩
    · have hclose : close? ready milliseconds x = none := congrArg _ hx
      rw [hend, hclose]
      rfl
    · have hclose : close? ready milliseconds x =
        some (completion ready milliseconds r.machine.memory) := congrArg _ hx
      have hshows := shows_lines x.host.toList
        (shows_completion ready milliseconds r.machine.memory)
      rw [List.append_nil] at hshows
      rw [hend, hclose]
      exact ⟨_, rfl, hshows⟩
    · have hclose : close? ready milliseconds x = some (breakdown ready e) := congrArg _ hx
      have hshows := shows_lines x.host.toList (shows_breakdown ready e)
      rw [List.append_nil] at hshows
      rw [hend, hclose]
      exact ⟨_, rfl, hshows⟩

/-- A script in an existing folder, and one that is looked for in a new folder. -/
theorem process_refines_log :
    let source := "ECHO 0\nLOG hi"
    let files : FileTree :=
      { nodes := [(["w"], .directory), (["w", "D"], .directory),
          (["w", "D", "T.SB"], .file source.toUTF8)]
        here := ["w"] }
    let start : Start := { words := ["--dir", "D", "T"], now := ⟨2024, 1, 2, 3, 4, 5⟩ }
    let start' : Start := { start with words := ["--dir", "../N", "T"] }
    files.WellFormed ∧
      (∃ exit, run? 3 start 7 files = some (exit, files) ∧
        exit.Shows 0 ["hi", "Execution of Simple Batch Program \"T\" completed in 7 ms"] []) ∧
      ∃ made, made.names "../N" = ["HELLO.SB"] ∧
        run? 3 start' 7 files = some (failure
          ("Simple Batch program \"T\" not found (../N/T.SB): " ++ FileError.notFound.message),
          made) := by
  intro source files start start'
  have hwf : files.WellFormed := by simp [FileTree.WellFormed, files, FileTree.node?]
  refine ⟨hwf, ?_, ?_⟩
  · let request : CommandLine.Request := { words := ["T"], dir := some "D" }
    have hparse : CommandLine.parse start.words = .ok request := by decide +kernel
    have hname : request.invocation.name = "T" := by decide +kernel
    have hpath : (request.folder start).path request.invocation.name = "D/T.SB" := by
      decide +kernel
    have hmade : (ensure (request.folder start) : StateM FileTree _) files = (.ok (), files) :=
      ensure_of_isDirectory (by decide +kernel)
    have htext : files.text "D/T.SB" = .ok source := FileTree.text_of_read (by rfl)
    have hhost : ((Program.ofSource source).resume Host.trace 3
        (.start (request.setup start) request.invocation #[])).host = #[.log .info "hi"] := by
      decide +kernel
    have hcode : (close? (request.ready start (.ofSource source)) 7
        ((Program.ofSource source).resume Host.trace 3
          (.start (request.setup start) request.invocation #[]))).map Exit.code = some 0 := by
      decide +kernel
    obtain ⟨r, hr⟩ := (code_eq_zero _ 7).1 (Option.map_eq_some_iff.1 hcode)
    obtain ⟨-, -, -, hok⟩ := process_refines hparse hwf hmade 3 7
    obtain ⟨-, -, hend⟩ := hok rfl
    obtain ⟨-, hfinished, -⟩ := hend source (hpath ▸ htext) (by simp [hhost])
    obtain ⟨exit, hexit, hshows⟩ := hfinished r hr
    have hline : "Execution of Simple Batch Program \"" ++ "T" ++ "\" completed in " ++ ofNat 7 ++
        " ms" = "Execution of Simple Batch Program \"T\" completed in 7 ms" := by
      decide +kernel
    rw [hhost, hname, hline] at hshows
    exact ⟨exit, hexit, hshows⟩
  · let request : CommandLine.Request := { words := ["T"], dir := some "../N" }
    have hparse : CommandLine.parse start'.words = .ok request := by decide +kernel
    have hensured : ((ensure (request.folder start') : StateM FileTree _) files).1 = .ok () := by
      decide +kernel
    let made := ((ensure (request.folder start') : StateM FileTree _) files).2
    have hmade : (ensure (request.folder start') : StateM FileTree _) files = (.ok (), made) :=
      Prod.ext hensured rfl
    have htext : made.text ((request.folder start').path request.invocation.name) =
        .error .notFound := by
      decide +kernel
    have hmessage : "Simple Batch program \"" ++ request.invocation.name ++ "\" not found (" ++
        (request.folder start').path request.invocation.name ++ "): " =
        "Simple Batch program \"T\" not found (../N/T.SB): " := by
      decide +kernel
    have haim : files.AimsAt "../N" ["N"] :=
      ⟨[".."], ["N"], [], by decide +kernel, by decide, by rfl, rfl⟩
    obtain ⟨-, hnew, -, hok⟩ := process_refines hparse hwf hmade 3 7
    have hnames := ((hnew (by decide +kernel) rfl).2 (.inr ⟨["N"], haim⟩)).2
    have hend := (hok rfl).1 _ htext
    rw [hmessage] at hend
    exact ⟨made, hnames, hend⟩

/-- A script that would end well is not run if the folder of the scripts cannot be
    made; and a folder that was not there can have more than the first script in
    it, if its path steps back out of a directory that is made only now. -/
theorem process_unrefined :
    let source := "ECHO 0\nLOG hi"
    let nodes : List (List String × Node) :=
      [(["w"], .directory), (["w", "D"], .directory), (["w", "D", "T.SB"], .file source.toUTF8)]
    let run := (Program.ofSource source).resume Host.trace 3
    (let files : FileTree := { nodes := (["w", "SB"], .file source.toUTF8) :: nodes, here := ["w"] }
      let start : Start := { words := ["--dir", "SB", "/w/D/T"], now := ⟨2024, 1, 2, 3, 4, 5⟩ }
      let request : CommandLine.Request := { words := ["/w/D/T"], dir := some "SB" }
      files.WellFormed ∧ CommandLine.parse start.words = .ok request ∧
        files.text ((request.folder start).path request.invocation.name) = .ok source ∧
        (∃ r, run (.start (request.setup start) request.invocation #[]) = .finished r) ∧
        (run? 3 start 7 files).map (·.1.code) = some 1) ∧
    (let files : FileTree := { nodes, here := ["w"] }
      let start : Start := { words := ["--dir", "X/../D", "T"], now := ⟨2024, 1, 2, 3, 4, 5⟩ }
      let request : CommandLine.Request := { words := ["T"], dir := some "X/../D" }
      files.WellFormed ∧ CommandLine.parse start.words = .ok request ∧
        files.isDirectory (request.folder start).dir = false ∧
        ∃ made, (ensure (request.folder start) : StateM FileTree _) files = (.ok (), made) ∧
          made.names (request.folder start).dir = ["HELLO.SB", "T.SB"]) := by
  intro source nodes run
  refine ⟨?_, ?_⟩
  · intro files start request
    have hpath : (request.folder start).path request.invocation.name = "/w/D/T.SB" := by
      decide +kernel
    have hcode : (close? (request.ready start (.ofSource source)) 7
        (run (.start (request.setup start) request.invocation #[]))).map Exit.code = some 0 := by
      decide +kernel
    refine ⟨by simp [FileTree.WellFormed, files, nodes, FileTree.node?], by decide +kernel, ?_,
      (code_eq_zero _ 7).1 (Option.map_eq_some_iff.1 hcode), by decide +kernel⟩
    rw [hpath]
    exact FileTree.text_of_read (by rfl)
  · intro files start request
    have hensured : ((ensure (request.folder start) : StateM FileTree _) files).1 = .ok () := by
      decide +kernel
    exact ⟨by simp [FileTree.WellFormed, files, nodes, FileTree.node?], by decide +kernel,
      by decide +kernel, _, Prod.ext hensured rfl, by decide +kernel⟩

end Process

end Console

end SimpleBatch
