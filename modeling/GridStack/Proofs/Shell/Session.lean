import Mathlib
import GridStack.Proofs.Shell.Arguments
import GridStack.Proofs.Wire.RoundTrip
import GridStack.Shell.Session

/-!
# A command does all or nothing

A command that fails leaves the files as they are and prints nothing but the usage, and one that succeeds has
compiled the program that its arguments select, has printed its code, and has changed one file at most, the
one that the image was asked for (`session_all_or_nothing`).

This is said of any disk: what a path leads to, which files can be read and which writes are refused is left
to it. All that is required of a write that succeeds is that the path then names a file with this content, and
that the other files are as before, as it is for regular files. The files that are held as values are one
such disk (`Files.disk`). Two things are assumed of the system, as a session has no place for them: printing does
not fail, and the name that the command is started by is none of its flags.
-/

namespace GridStack

/-- A disk, with what a state of it holds, and what it answers to a request. A refused write leaves the state
as it is. -/
structure Disk (State File : Type) where
  /-- The content of a file, none if there is no such file. -/
  content? : State → File → Option (List UInt8)
  /-- The file that a path names. -/
  named? : State → String → Option File
  read : State → String → Except SystemError (List UInt8)
  write : State → String → List UInt8 → Except SystemError State
  /-- What has been written is the content of the file that the path names, and no other file has changed. -/
  written : ∀ {state changed : State} {path : String} {bytes : List UInt8},
    write state path bytes = .ok changed → ∃ file, named? changed path = some file ∧
      content? changed file = some bytes ∧
        ∀ other, other ≠ file → content? changed other = content? state other

/-- What a command leaves behind on a disk. -/
structure Disk.Ending (State : Type) where
  status : UInt32
  stdout : String
  stderr : String
  state : State

/-- Runs a session on a disk. -/
def Session.runWith {State File : Type} (disk : Disk State File) (state : State) :
    Session → Disk.Ending State
  | .exit status stdout stderr => ⟨status, stdout, stderr, state⟩
  | .read path next => (next (disk.read state path)).runWith disk state
  | .write path content next =>
    match disk.write state path content with
    | .ok changed => (next none).runWith disk changed
    | .error error => (next (some error)).runWith disk state

namespace Files

/-- Files that are put somewhere are there. -/
theorem content?_put (files : Files) (place : Place) (content : List UInt8) :
    (files.put place content).content? place = some content := by
  unfold content? put
  rw [List.lookup_cons, beq_self_eq_true]

/-- The other files stay as they are. -/
theorem content?_put_of_ne (files : Files) {place other : Place} (content : List UInt8) (ne : other ≠ place) :
    (files.put place content).content? other = files.content? other := by
  have apart : (other == place) = false := beq_eq_false_iff_ne.2 ne
  unfold content? put
  rw [List.lookup_cons, apart]
  dsimp only
  -- The entries of the place itself are dropped, and a search for another place never meets them.
  induction files.entries with
  | nil => rfl
  | cons entry entries ih =>
    obtain ⟨here, bytes⟩ := entry
    rw [List.filter_cons, List.lookup_cons]
    by_cases same : here = place
    · have skipped : (other == here) = false := by rw [same, apart]
      simpa [same, skipped, apart] using ih
    · have kept : (here != place) = true := bne_iff_ne.2 same
      rw [if_pos kept, List.lookup_cons, ih]

/-- Where a walk ends does not depend on the files. -/
theorem walk_ok {files : Files} (files' : Files) {folder : Folder} {parts : List String}
    {place : Option Place} (h : files.walk folder parts = .ok place) :
    files'.walk folder parts = .ok place := by
  induction parts generalizing folder with
  | nil => exact h
  | cons part rest ih =>
    rw [walk] at h ⊢
    split at h
    · next stays => rw [if_pos stays]; exact ih h
    · next moves =>
      rw [if_neg moves]
      split at h
      · next up => rw [if_pos up]; exact ih h
      · next down =>
        rw [if_neg down]
        split at h
        · next last => rw [if_pos last]; exact h
        · contradiction

/-- What a path leads to does not depend on the files. -/
theorem resolve_ok {files : Files} (files' : Files) {path : String} {place : Option Place}
    (h : files.resolve path = .ok place) : files'.resolve path = .ok place := by
  unfold resolve at h ⊢
  split at h
  · contradiction
  · next some_path =>
    rw [if_neg some_path]
    split at h
    · contradiction
    · next short =>
      rw [if_neg short]
      exact walk_ok files' h

/-- A write that succeeds has put the content at the place that the path leads to. -/
theorem write_ok {files changed : Files} {path : String} {content : List UInt8}
    (h : files.write path content = .ok changed) :
    ∃ place, files.resolve path = .ok (some place) ∧ changed = files.put place content := by
  unfold write at h
  cases resolved : files.resolve path with
  | error error =>
    rw [resolved] at h
    contradiction
  | ok target =>
    rw [resolved] at h
    cases target with
    | none => contradiction
    | some place =>
      change (if path.endsWith "/" then _ else if maxName < place.name.utf8ByteSize then _ else _) = _ at h
      split at h
      · contradiction
      · split at h
        · contradiction
        · exact ⟨place, rfl, (Except.ok.inj h).symm⟩

/-- Files that are held as values are a disk. -/
def disk : Disk Files Place where
  content? := content?
  named? files path := (files.resolve path).toOption.join
  read := read
  write := write
  written := by
    intro files changed path bytes h
    obtain ⟨place, resolved, rfl⟩ := write_ok h
    refine ⟨place, ?_, content?_put files place bytes, fun other ne => content?_put_of_ne files bytes ne⟩
    rw [resolve_ok (files.put place bytes) resolved]
    rfl

end Files

/-- Running a session on files is running it on this disk. -/
theorem Session.runOn_eq (files : Files) (session : Session) :
    session.runOn files = ⟨(session.runWith Files.disk files).status,
      (session.runWith Files.disk files).stdout, (session.runWith Files.disk files).stderr,
      (session.runWith Files.disk files).state⟩ := by
  induction session generalizing files with
  | exit status stdout stderr => rfl
  | read path next ih => exact ih (files.read path) files
  | write path content next ih =>
    cases answer : files.write path content with
    | ok changed =>
      have same : Files.disk.write files path content = .ok changed := answer
      simp only [runOn, runWith, answer, same]
      exact ih none changed
    | error error =>
      have same : Files.disk.write files path content = .error error := answer
      simp only [runOn, runWith, answer, same]
      exact ih (some error) files

namespace Shell

variable {State File : Type} (disk : Disk State File) (state : State)

/-- The program that the arguments select: the demonstration program that is asked for by its name, and
otherwise the one in the input. -/
inductive Selected (args : List String) : Program → Prop
  | demo {name : String} {program : Program} (first : FirstValue demoFlag name args)
      (known : Demo.byName? name = some program) : Selected args program
  | input {path : String} {bytes : List UInt8} {program : Program} (absent : demoFlag ∉ args)
      (input : InputIs path args) (reads : disk.read state path = .ok bytes)
      (decodes : Program.ofBytes bytes = .ok program) : Selected args program

/-- An image is in the file that it was asked for, if it was, and the other files are as before. -/
inductive Delivered (image : Image) : (target : Option String) → (final : State) → Prop
  | unasked : Delivered image none state
  | asked {path : String} {final : State} {file : File} {bytes : List UInt8}
      (named : disk.named? final path = some file) (holds : disk.content? final file = some bytes)
      (decodes : bytes.length < 2 ^ 64 → Image.ofBytes bytes = .ok image)
      (others : ∀ other, other ≠ file → disk.content? final other = disk.content? state other) :
      Delivered image (some path) final

/-- The command has failed: no file has changed, and nothing is printed but the usage. -/
structure Failed (e : Disk.Ending State) : Prop where
  status : e.status = 1
  state_eq : e.state = state
  stdout : e.stdout = "" ∨ e.stdout = usage

/-- The command has compiled a program. -/
structure Compiled (settings : Settings) (program : Program) (e : Disk.Ending State) : Prop where
  status : e.status = 0
  image : ∃ image, program.link settings.options = .ok image ∧
    e.stdout = (if settings.listing then image.listing else image.text) ∧
      Delivered disk state image settings.image e.state

/-- A failure leaves everything as it is. -/
theorem failed_failure (report line : String) :
    Failed state ((Session.failure report line).runWith disk state) :=
  ⟨rfl, rfl, .inl rfl⟩

/-- A program is compiled, or the command fails. -/
theorem compile_ends (settings : Settings) (program : Program) :
    Failed state ((compile settings program).runWith disk state) ∨
      Compiled disk state settings program ((compile settings program).runWith disk state) := by
  unfold compile
  cases linked : program.link settings.options with
  | error error => exact .inl (failed_failure disk state _ _)
  | ok image =>
    dsimp only
    cases target : settings.image with
    | none => exact .inr ⟨rfl, image, linked, rfl, by rw [target]; exact .unasked⟩
    | some path =>
      dsimp only
      unfold Session.runWith
      -- The image is written before anything is printed, so a refused write prints nothing.
      cases answer : disk.write state path image.toBytes with
      | error error => exact .inl (failed_failure disk state _ _)
      | ok changed =>
        obtain ⟨file, named, holds, others⟩ := disk.written answer
        have decodes : image.toBytes.length < 2 ^ 64 → Image.ofBytes image.toBytes = .ok image := by
          intro small
          have reads := image.ofBytes_append small []
          rwa [List.append_nil] at reads
        exact .inr ⟨rfl, image, linked, rfl, by rw [target]; exact .asked named holds decodes others⟩

/-- A demonstration program is compiled, or the command fails. -/
theorem compileDemo_ends (settings : Settings) {args : List String} {name : String}
    (first : FirstValue demoFlag name args) :
    Failed state ((compileDemo settings name).runWith disk state) ∨
      ∃ program, Selected disk state args program ∧
        Compiled disk state settings program ((compileDemo settings name).runWith disk state) := by
  unfold compileDemo
  cases known : Demo.byName? name with
  | none => exact .inl (failed_failure disk state _ _)
  | some program =>
    exact (compile_ends disk state settings program).imp_right fun compiled =>
      ⟨program, .demo first known, compiled⟩

/-- The program in the input is compiled, or the command fails. -/
theorem compileFile_ends (settings : Settings) {args : List String} {path : String} (absent : demoFlag ∉ args)
    (input : InputIs path args) :
    Failed state ((compileFile settings path).runWith disk state) ∨
      ∃ program, Selected disk state args program ∧
        Compiled disk state settings program ((compileFile settings path).runWith disk state) := by
  unfold compileFile Session.runWith
  cases reads : disk.read state path with
  | error error => exact .inl (failed_failure disk state _ _)
  | ok bytes =>
    dsimp only
    cases decodes : Program.ofBytes bytes with
    | error error => exact .inl (failed_failure disk state _ _)
    | ok program =>
      exact (compile_ends disk state settings program).imp_right fun compiled =>
        ⟨program, .input absent input reads decodes, compiled⟩

/-- What a command with these arguments leaves behind. -/
def ending (args : List String) : Disk.Ending State :=
  (session args).runWith disk state

/-- A command with arguments that do not ask for help fails, or compiles the program that they select. -/
theorem session_ends {args : List String} (some_args : args ≠ []) (no_help : "--help" ∉ args)
    (no_h : "-h" ∉ args) :
    Failed state (ending disk state args) ∨ ∃ target program, OptionalValue imageFlag args target ∧
      Selected disk state args program ∧
      Compiled disk state ⟨{ fuse := !args.contains "--no-fuse" }, args.contains "--listing",
        args.contains "--verbose", target⟩ program (ending disk state args) := by
  have asked : ¬ (args = [] ∨ "--help" ∈ args ∨ "-h" ∈ args) := by
    simp only [not_or]
    exact ⟨some_args, no_help, no_h⟩
  unfold ending session
  rw [if_neg asked]
  -- The arguments are read in this order: the target of the image, the demonstration, the input.
  cases image : flagValue imageFlag args with
  | error flag => exact .inl (failed_failure disk state _ _)
  | ok target =>
    have valued := flagValue_eq_ok_iff.1 image
    cases demo : flagValue demoFlag args with
    | error flag => exact .inl (failed_failure disk state _ _)
    | ok asked_for =>
      dsimp only
      cases asked_for with
      | some name =>
        have first := flagValue_eq_some_iff.1 demo
        exact (compileDemo_ends disk state _ first).imp_right fun ⟨program, selected, compiled⟩ =>
          ⟨target, program, valued, selected, compiled⟩
      | none =>
        have absent := flagValue_eq_none_iff.1 demo
        cases input : inputFile? args with
        | none => exact .inl ⟨rfl, rfl, .inr rfl⟩
        | some path =>
          exact (compileFile_ends disk state _ absent (inputFile?_eq_some_iff.1 input)).imp_right
            fun ⟨program, selected, compiled⟩ => ⟨target, program, valued, selected, compiled⟩

/-- A command that fails leaves the files as they are, and prints nothing but the usage. One that succeeds and
was not asked for help has printed the code of the program that its arguments select, has put its image where
it was asked for, and has changed no other file. -/
theorem session_all_or_nothing (args : List String) :
    ((ending disk state args).status ≠ 0 → (ending disk state args).state = state ∧
      ((ending disk state args).stdout = "" ∨ (ending disk state args).stdout = usage)) ∧
    ((ending disk state args).status = 0 → args ≠ [] → "--help" ∉ args → "-h" ∉ args →
      ∃ program image target, Selected disk state args program ∧
        program.link { fuse := "--no-fuse" ∉ args } = .ok image ∧
        (ending disk state args).stdout
          = (if "--listing" ∈ args then image.listing else image.text) ∧
        OptionalValue imageFlag args target ∧
        Delivered disk state image target (ending disk state args).state) := by
  by_cases help : args = [] ∨ "--help" ∈ args ∨ "-h" ∈ args
  · -- The usage is printed, and nothing else happens.
    have shown : ending disk state args = ⟨0, usage, "", state⟩ := by
      unfold ending session
      rw [if_pos help]
      rfl
    rw [shown]
    refine ⟨fun failed => absurd rfl failed, fun _ some_args no_help no_h => ?_⟩
    rcases help with empty | help | h
    · exact absurd empty some_args
    · exact absurd help no_help
    · exact absurd h no_h
  · obtain ⟨some_args, no_help, no_h⟩ : args ≠ [] ∧ "--help" ∉ args ∧ "-h" ∉ args := by
      simpa only [not_or] using help
    rcases session_ends disk state some_args no_help no_h with failed |
      ⟨target, program, valued, selected, status, image, links, stdout, delivered⟩
    · refine ⟨fun _ => ⟨failed.state_eq, failed.stdout⟩, fun succeeds => ?_⟩
      rw [failed.status] at succeeds
      contradiction
    · refine ⟨fun fails => absurd status fails, fun _ _ _ _ => ?_⟩
      have fuse : (!args.contains "--no-fuse") = decide ("--no-fuse" ∉ args) := by simp
      rw [fuse] at links
      refine ⟨program, image, target, selected, links, ?_, valued, delivered⟩
      rw [stdout]
      simp only [List.contains_iff_mem]

/-- One file that has nothing to do with the command. -/
def neighbour : Files := .ofList [("b", [7])]

/-- Asked for a program that there is not, the command leaves the file as it is; asked for the program of one
write, it puts the image beside it. -/
theorem session_all_or_nothing_output :
    ((ending Files.disk neighbour ["--demo", "no"]).status ≠ 0 ∧
      (ending Files.disk neighbour ["--demo", "no"]).state = neighbour) ∧
    (ending Files.disk neighbour ["--image", "a", "--demo", "output"]).status = 0 ∧
      ∃ program image target, Selected Files.disk neighbour ["--image", "a", "--demo", "output"] program ∧
        program.link {} = .ok image ∧
        Delivered Files.disk neighbour image target
          (ending Files.disk neighbour ["--image", "a", "--demo", "output"]).state := by
  have fails : (ending Files.disk neighbour ["--demo", "no"]).status ≠ 0 := by decide +kernel
  have succeeds : (ending Files.disk neighbour ["--image", "a", "--demo", "output"]).status = 0 := by
    cbv
  obtain ⟨program, image, target, selected, links, -, -, delivered⟩ :=
    (session_all_or_nothing Files.disk neighbour _).2 succeeds (by decide) (by decide) (by decide)
  exact ⟨⟨fails, ((session_all_or_nothing Files.disk neighbour _).1 fails).1⟩, succeeds, program, image,
    target, selected, links, delivered⟩

end Shell

end GridStack
